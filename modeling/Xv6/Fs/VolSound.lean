/-
  THE INODE LAYER KEEPS ITS SPECIFICATION.

  The calls proved in the modules before are put together: the code of `Xv6.Fs.Inode` refines
  `Vol.spec`, seen through `Rep`.  From here on, code above the inode layer is reasoned about on
  volumes only.

  `Kern.Vols` joins this with the layer below: a kernel state stands for a volume when it backs a store
  that represents it.
-/
import Xv6.Fs.VolTrunc
import Xv6.Fs.VolWrite

namespace Xv6

open Prog

section Calls

variable {sb : Superblock} {g : Goal}

/-- The code behind every call does what its specification says. -/
theorem served (hsb : sb.Wf) (o : Icall) : Served sb g o := by
  cases o with
  | iget inum => exact iget_served inum
  | idup k => exact idup_served k
  | ialloc type => exact ialloc_served hsb type
  | ilock k => exact ilock_served hsb k
  | iunlock k => exact iunlock_served k
  | iput k => exact iput_served hsb k
  | updNlink k x => exact updNlink_served hsb k x
  | updPerm k x => exact updPerm_served hsb k x
  | updNew k major minor => exact updNew_served hsb k major minor
  | itrunc k => exact itrunc_served hsb k
  | readi k dst off n => exact readi_served hsb k dst off n
  | writei k src off n => exact writei_served hsb k src off n
  | inode k =>
    intro t v hR _
    refine Store.wp_mem ⟨v, ⟨?_, rfl⟩, hR⟩
    rw [hR.mem]
    rfl
  | bmap k bn => exact fun t v _ hsafe => hsafe.elim
  | rawWrite b um addr => exact fun t v _ hsafe => hsafe.elim
  | beginOp =>
    intro t v hR hsafe
    refine ⟨fun ht => ?_, ?_⟩
    · have h1 : (v.lh : Int) + (v.out + 1) * MAXOPBLOCKS ≤ LOGSIZE := hsafe ht
      have h2 := hR.lh
      rw [hR.out]
      omega
    · rintro ⟨⟩ t' rfl
      refine ⟨_, rfl, ?_⟩
      exact { hR with fs := { hR.fs with }, ok := { hR.ok with }, out := congrArg (· + 1) hR.out }
  | endOp =>
    intro t v hR _
    refine ⟨hR.held, ?_⟩
    rintro ⟨⟩ t' rfl
    refine ⟨_, rfl, ?_⟩
    refine { hR with
      fs := { hR.fs with }, ok := { hR.ok with }, out := congrArg (· - 1) hR.out, lh := ?_ }
    rw [hR.out]
    split
    · exact le_rfl
    · exact hR.lh
  | tabs =>
    intro t v hR _
    refine Store.wp_mem ⟨v, ⟨?_, rfl⟩, hR⟩
    rw [hR.mem]
  | setTabs tb =>
    intro t v hR _
    refine Store.wp_mem (Store.wp_setMem (k := fun _ => pure ()) ⟨_, rfl, ?_⟩)
    rw [hR.mem]
    exact hR.withMem ⟨hR.ok.slots.uniq, hR.ok.slots.inum, hR.ok.slots.valid⟩
  | rawRead b um addr =>
    rintro t v hR ⟨hout, hnt⟩
    refine ⟨⟨hR.held, by rw [hR.out]; exact hout, hnt⟩, ?_⟩
    rintro r t' rfl
    exact ⟨v, rfl, hR⟩
  | forceFail i =>
    rintro t v hR ⟨hout, hq⟩
    refine ⟨⟨by rw [hR.out]; exact hout, hq⟩, ?_⟩
    rintro ⟨⟩ t' rfl
    exact ⟨v, rfl, { hR with fs := { hR.fs with } }⟩
  | forceDiskFail i =>
    rintro t v hR ⟨hout, hq⟩
    refine ⟨⟨by rw [hR.out]; exact hout, hq⟩, ?_⟩
    rintro ⟨⟩ t' rfl
    exact ⟨v, rfl, { hR with fs := { hR.fs with } }⟩
  | fail e =>
    intro t v hR hsafe
    exact ⟨hsafe, fun r _ _ => nomatch r⟩

/-- **The inode layer refines its specification.** -/
theorem icall_refines (hsb : sb.Wf) :
    Refines (Icall.code sb) (Vol.spec sb g) (Store.spec sb g) (Rep sb) := by
  intro o t v hR hsafe
  refine wp_mono (served hsb o t v hR hsafe) ?_
  rintro r t' ⟨v', heffect, hR'⟩
  exact ⟨v', ⟨heffect, hR'.ok⟩, hR'⟩

end Calls

end Xv6
