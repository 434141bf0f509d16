/-
  RUNS IN WHICH NOTHING HAS TO WAIT.

  `begin_op` sleeps while the log has no room for one more operation, and `iget` panics when the inode
  cache is full.  Both depend on more than the code that calls them.  `Kern.Patient` is the assumption
  that, in the run at hand, neither happens; under it the inode layer keeps the promises of
  `Vol.patient` (`served`): it never fails.

  `Vol.patient` is a specification of volumes WITH THEIR LOG: besides the volume it knows which blocks are
  in the log, in their order.  So whether `begin_op` waits is a matter of the state before, and it can be
  asked what the state before must be for a run to be patient:

  1. what every call leaves in the log (`wp_code`): `updPerm` adds the block of its inode, the last
     `end_op` empties the log, the other calls leave it alone;
  2. what has been proved on `Vol.spec` about code that leaves the log alone carries over (`patiently`);
  3. with `tot` every safe call finds room, and the run is patient (`Logs.guarded`); without `tot` the
     room that the calls have found is part of what they promise (`Logs.patiently`).
-/
import Xv6.Fs.Path

namespace Xv6

open Prog Uses Kern

variable {e : Err} {o : Icall} {sb : Superblock} {α : Type} {v : Vol} {p : Up α} {Q : α → Vol → Prop}

/-! ## The assumption -/

namespace Kern

/-- `begin_op` does not have to wait. -/
def LogRoom : Icall → Kern → Prop
  | .beginOp, s => s.mach.log.lh.length + (s.mach.log.outstanding + 1) * MAXOPBLOCKS ≤ LOGSIZE
  | _, _ => True

/-- `iget` finds an entry of the inode cache. -/
def CacheRoom : Icall → Kern → Prop
  | .iget i, s => (s.mem.iget i).isSome
  | _, _ => True

/-- The call finds room in the log and in the inode cache. -/
def Patient (o : Icall) (s : Kern) : Prop := LogRoom o s ∧ CacheRoom o s

instance (o : Icall) (s : Kern) : Decidable (LogRoom o s) := by
  cases o with
  | beginOp => exact inferInstanceAs (Decidable (_ ≤ _))
  | _ => exact isTrue trivial

instance (o : Icall) (s : Kern) : Decidable (CacheRoom o s) := by
  cases o with
  | iget i => exact inferInstanceAs (Decidable ((s.mem.iget i).isSome = true))
  | _ => exact isTrue trivial

instance (o : Icall) (s : Kern) : Decidable (Patient o s) := inferInstanceAs (Decidable (_ ∧ _))

/-- A run can be seen to meet an assumption. -/
instance {α : Type} (sb : Superblock) (G : Icall → Kern → Prop) [hG : ∀ o s, Decidable (G o s)] (p : Up α)
    (s : Kern) : Decidable (p.Guarded (I := Inodes) (Kern.icall sb) G s) :=
  @decidableGuarded Inodes α Kern Err (Kern.icall sb) G hG p s

end Kern

/-- Exclude every failure. -/
def Goal.strict : Goal := .but fun _ => False

/-- Exclude every failure but that the inode cache is full, and with `tot` that one, too. -/
def Goal.roomy (tot : Prop) : Goal := .but fun e => e = .panic "iget: no inodes" ∧ ¬ tot

namespace Vol

variable {tot : Prop} {l : List Nat} {t : Store}

/-! ## What is promised -/

/-- Calls that leave the log alone. -/
def Plain : Icall → Prop
  | .iget _ | .idup _ | .ilock _ | .iunlock _ | .iput _ | .inode _ | .readi .. | .tabs => True
  | .fail e => e ≠ .panic "iget: no inodes"
  | _ => False

/-- There is what the call would else wait or panic for. -/
def HasRoom : Icall → Vol × List Nat → Prop
  | .beginOp, (v, l) => l.length + (v.out + 1) * MAXOPBLOCKS ≤ LOGSIZE
  | .iget i, (v, _) => (v.mem.iget i).isSome
  | _, _ => True

/-- What the code has to see to, without counting the log. -/
def PatientSafe (sb : Superblock) : Icall → Vol × List Nat → Prop
  | .beginOp, _ => True
  | .iget i, _ => i < sb.ninodes
  | .updPerm k x, (v, _) => Safe sb .strict (.updPerm k x) v
  | .endOp, _ => True
  | o, (v, _) => Plain o ∧ Safe sb .strict o v

/-- A call that comes back found room, and says which block it logged. -/
def PatientStep (sb : Superblock) : (o : Icall) → Vol × List Nat → o.Res → Vol × List Nat → Prop
  | .beginOp, (v, l), _, w => HasRoom .beginOp (v, l) ∧ w = ({ v with out := v.out + 1, lh := l.length }, l)
  | .updPerm k x, (v, l), r, w => Effect sb .strict (.updPerm k x) v r w.1 ∧
    w.2 = addBlock l (sb.iblock (v.inum k))
  | .endOp, (v, l), r, w => Effect sb .strict .endOp v r w.1 ∧ w.2 = if v.out = 1 then [] else l
  | o, (v, l), r, w => Effect sb .strict o v r w.1 ∧ w.2 = l

/-- The inode layer, under the assumption, on volumes with their log.  With `tot` callers must see to the
    room. -/
def patient (tot : Prop) (sb : Superblock) : Spec Inodes (Vol × List Nat) :=
  ⟨fun o w => PatientSafe sb o w ∧ (tot → HasRoom o w), fun o w r w' => PatientStep sb o w r w' ∧ w'.1.Ok sb⟩

theorem roomy_bad (h : e ≠ .panic "iget: no inodes") : (Goal.roomy tot).bad e := fun he => h he.1

theorem patientSafe_of_safe (ho : Plain o) (h : Safe sb (.roomy tot) o v) :
    (patient tot sb).Safe o (v, l) := by
  cases o with
  | fail e => exact absurd (roomy_bad ho) h
  | iget i => exact ⟨h.1, fun ht => h.2 fun hb => hb.2 ht⟩
  | ilock k =>
    obtain ⟨hk, href, hfree, ht, hlh⟩ := h
    exact ⟨⟨trivial, hk, fun _ => href (roomy_bad (by decide)), fun _ => hfree (roomy_bad (by decide)),
      fun _ => ht (roomy_bad (by decide)), hlh⟩, fun _ => trivial⟩
  | iunlock k => exact ⟨⟨trivial, h.1, fun _ => h.2 (roomy_bad (by decide))⟩, fun _ => trivial⟩
  | iput k =>
    obtain ⟨hk, href, hd⟩ := h
    refine ⟨⟨trivial, hk, href, fun hdying => ⟨fun _ => ?_, (hd hdying).2⟩⟩, fun _ => trivial⟩
    exact (hd hdying).1 (roomy_bad (by decide))
  | idup | inode | readi | tabs => exact ⟨⟨trivial, h⟩, fun _ => trivial⟩
  | _ => exact ho.elim

theorem patientStep_effect (ho : Plain o) {r : o.Res} {w : Vol × List Nat}
    (h : PatientStep sb o (v, l) r w) : Effect sb (.roomy tot) o v r w.1 ∧ w.2 = l := by
  cases o with
  | iget | idup | ilock | iunlock | iput | inode | readi | tabs | fail => exact h
  | _ => exact ho.elim

/-- **Code that leaves the log alone.** -/
theorem patiently {β : Type} {f : α → Up β} {Q' : β → Vol × List Nat → Prop} (hu : p.Uses Plain)
    (hp : p.wp (Vol.spec sb (.roomy tot)) Q v)
    (h : ∀ a v', Q a v' → (f a).wp (Vol.patient tot sb) Q' (v', l)) :
    (p >>= f).wp (Vol.patient tot sb) Q' (v, l) := by
  have hall : p.wp (Vol.patient tot sb) (fun a w => ∃ v', Q a v' ∧ w = (v', l)) (v, l) := by
    refine wp_transfer (R := fun w v => w = (v, l)) ?_ ?_ hu rfl hp
    · rintro o _ v rfl ho hsafe
      exact patientSafe_of_safe ho hsafe
    · rintro o _ v r ⟨v', l'⟩ rfl ho ⟨hstep, hok⟩
      have heffect : Effect sb (.roomy tot) o v r v' ∧ l' = l := patientStep_effect ho hstep
      exact ⟨v', ⟨heffect.1, hok⟩, by rw [heffect.2]⟩
  refine wp_seq hall ?_
  rintro a _ ⟨v', hQ, rfl⟩
  exact h a v' hQ

theorem wp_beginOp {f : Unit → Up α} {Q : α → Vol × List Nat → Prop} (hroom : tot → HasRoom .beginOp (v, l))
    (h : HasRoom .beginOp (v, l) → Vol.Ok sb { v with out := v.out + 1, lh := l.length } →
      (f ()).wp (Vol.patient tot sb) Q ({ v with out := v.out + 1, lh := l.length }, l)) :
    (Up.beginOp >>= f).wp (Vol.patient tot sb) Q (v, l) := by
  refine ⟨⟨trivial, hroom⟩, ?_⟩
  rintro ⟨⟩ _ ⟨⟨hroom, rfl⟩, hok⟩
  exact h hroom hok

/-! ## What the calls leave in the log -/

open Code in
theorem uses_modify (k : Nat) (f : Inode → Inode) : (modify k f).Uses Bcall.Unlogged :=
  ⟨trivial, fun _ => ⟨trivial, fun _ => trivial⟩⟩

/-- The code behind a plain call leaves the log alone. -/
theorem wp_plain (hsb : sb.Wf) (hR : Rep sb t v) (ho : Plain o) (hsafe : Safe sb .strict o v) :
    (o.code sb).wp (Store.spec sb .strict) (fun r t' =>
      (∃ v', Effect sb .strict o v r v' ∧ Rep sb t' v') ∧ t'.lh = t.lh) t := by
  have hserved := Xv6.served hsb o t v hR hsafe
  have hquiet : (o.code sb).Uses Bcall.Unlogged → (o.code sb).wp (Store.spec sb .strict) (fun r t' =>
      (∃ v', Effect sb .strict o v r v' ∧ Rep sb t' v') ∧ t'.lh = t.lh) t :=
    fun hu => Store.wp_log (fun _ => id) (hu.wp_only hserved)
  have hfail : ∀ {β : Type} e, (Prog.call (.fail e) Empty.elim : Code β).Uses Bcall.Unlogged :=
    fun e => ⟨trivial, fun r => r.elim⟩
  cases o with
  | readi k dst off n => exact Store.wp_log (fun _ h => h.unlogged) (wp_readi hsb hR hsafe)
  | iput k =>
    -- an inode that dies is not safe to drop
    have hnd : ¬ ((t.mem.icache k).ref = 1 ∧ (t.mem.icache k).valid = true ∧
        (t.mem.icache k).din.nlink = 0) := by
      rw [hR.mem]
      exact fun hd => (hsafe.2.2 hd).2 trivial
    refine Store.wp_mem ?_
    have hcode := hserved.2 t.mem t ⟨rfl, rfl⟩
    dsimp only [Prog.bind] at hcode ⊢
    rw [if_neg hnd] at hcode ⊢
    exact Store.wp_log (fun _ => id) ((uses_modify ..).wp_only hcode)
  | iget i =>
    refine hquiet (bind ⟨trivial, fun _ => trivial⟩ fun m => ?_)
    split
    · exact ⟨trivial, fun _ => trivial⟩
    · exact hfail _
  | idup k => exact hquiet (uses_modify ..)
  | ilock k =>
    refine hquiet (bind ⟨trivial, fun _ => trivial⟩ fun m => ?_)
    dsimp only
    split
    · exact hfail _
    split
    · exact hfail _
    refine ⟨trivial, fun _ => ?_⟩
    split
    · trivial
    refine ⟨trivial, fun _ => ⟨trivial, fun d => ⟨trivial, fun _ => ?_⟩⟩⟩
    refine (uses_modify ..).bind fun _ => ?_
    split
    · exact hfail _
    · trivial
  | iunlock k =>
    refine hquiet (bind ⟨trivial, fun _ => trivial⟩ fun m => ?_)
    split
    · exact hfail _
    · exact ⟨trivial, fun _ => trivial⟩
  | inode k | tabs => exact hquiet ⟨trivial, fun _ => trivial⟩
  | fail e => exact hquiet ⟨trivial, fun r => r.elim⟩
  | _ => exact ho.elim

/-- **What the code behind a call leaves in the log**, given the room. -/
theorem wp_code (hsb : sb.Wf) (hR : Rep sb t v) (hsafe : PatientSafe sb o (v, t.lh))
    (hroom : HasRoom o (v, t.lh)) : (o.code sb).wp (Store.spec sb .strict) (fun r t' =>
      ∃ w, PatientStep sb o (v, t.lh) r w ∧ Rep sb t' w.1 ∧ t'.lh = w.2) t := by
  -- a call whose code leaves the log alone
  have hplain : ∀ {o : Icall}, Plain o → Safe sb .strict o v →
      (∀ r v', Effect sb .strict o v r v' → PatientStep sb o (v, t.lh) r (v', t.lh)) →
      (o.code sb).wp (Store.spec sb .strict) (fun r t' =>
        ∃ w, PatientStep sb o (v, t.lh) r w ∧ Rep sb t' w.1 ∧ t'.lh = w.2) t := by
    grind [wp_mono, wp_plain]
  cases o with
  | beginOp =>
    have hR0 : Rep sb t { v with lh := t.lh.length } := { hR with fs := { hR.fs with }, ok := { hR.ok with }, lh := le_rfl }
    have h := Xv6.served hsb .beginOp t _ hR0 (g := .strict) fun _ => hroom
    refine ⟨h.1, ?_⟩
    rintro ⟨⟩ t' hstep
    obtain ⟨v', rfl, hR'⟩ := h.2 () t' hstep
    refine ⟨_, ⟨hroom, rfl⟩, hR', ?_⟩
    rw [show t' = _ from hstep]
  | endOp =>
    have h := Xv6.served hsb .endOp t v hR (g := .strict) trivial
    refine ⟨h.1, ?_⟩
    rintro ⟨⟩ t' hstep
    obtain ⟨v', heffect, hR'⟩ := h.2 () t' hstep
    refine ⟨(v', if v.out = 1 then [] else t.lh), ⟨heffect, rfl⟩, hR', ?_⟩
    rw [show t' = _ from hstep, ← hR.out]
  | updPerm k x =>
    refine wp_mono (wp_updPerm hsb hR hsafe) ?_
    rintro r t' ⟨⟨v', heffect, hR'⟩, hl⟩
    exact ⟨(v', _), ⟨heffect, rfl⟩, hR', hl⟩
  | iget i => exact hplain trivial ⟨hsafe, fun _ => hroom⟩ fun _ _ h => ⟨h, rfl⟩
  | idup | ilock | iunlock | iput | inode | readi | tabs | fail =>
    exact hplain hsafe.1 hsafe.2 fun _ _ h => ⟨h, rfl⟩
  | _ => exact hsafe.1.elim

end Vol

/-! ## The promise is kept -/

namespace Kern

variable {s : Kern} {tot : Prop} {w : Vol × List Nat}

/-- What is safe for `strict` does not fail. -/
theorem Shows.strictly (hsb : sb.Wf) (hv : s.Shows sb v) (hsafe : Vol.Safe sb .strict o v) :
    ∃ r s' v', icall sb o s = .ok (r, s') ∧ Vol.Effect sb .strict o v r v' ∧ v'.Ok sb ∧ s'.Shows sb v' := by
  have h := hv.call (g := .strict) hsb trivial id hsafe
  cases hr : icall sb o s with
  | error e =>
    rw [hr] at h
    exact absurd id h
  | ok rs =>
    grind

/-- The state shows the volume, and these blocks are in its log. -/
def Logs (sb : Superblock) (s : Kern) (w : Vol × List Nat) : Prop :=
  ∃ t, BackedQuiet sb s t ∧ Rep sb t w.1 ∧ t.lh = w.2

theorem Shows.logs (h : s.Shows sb v) : s.Logs sb (v, s.mach.log.lh) := by
  obtain ⟨t, hB, hR⟩ := h
  obtain ⟨H, hH⟩ := hB.1
  exact ⟨t, hB, hR, by rw [hH.log]⟩

theorem Logs.shows (h : s.Logs sb w) : s.Shows sb w.1 := by
  obtain ⟨t, hB, hR, -⟩ := h
  exact ⟨t, hB, hR⟩

/-- The assumption, on the volume and the log. -/
theorem Logs.patient_iff (h : s.Logs sb w) : Patient o s ↔ Vol.HasRoom o w := by
  obtain ⟨hout, -, -, -⟩ := h.shows.exact
  have hmem := h.shows.mem
  obtain ⟨t, ⟨⟨H, hB⟩, -⟩, -, hl⟩ := h
  have hlog : s.mach.log.lh = w.2 := by rw [hB.log, ← hl]
  unfold Patient
  cases o with
  | beginOp =>
    refine (and_iff_left trivial).trans ?_
    show s.mach.log.lh.length + (s.mach.log.outstanding + 1) * MAXOPBLOCKS ≤ LOGSIZE ↔ _
    rw [hlog, hout]
    exact Iff.rfl
  | iget i =>
    refine (and_iff_right trivial).trans ?_
    show (s.mem.iget i).isSome = true ↔ _
    rw [hmem]
    exact Iff.rfl
  | _ => exact iff_of_true ⟨trivial, trivial⟩ trivial

/-- **The machine serves the patient specification.** -/
theorem served (hsb : sb.Wf) : ServesWhen (icall sb) Patient (fun _ => True)
    (Vol.patient tot sb) (Logs sb) := by
  intro o s w hw hG hsafe
  have hroom := hw.patient_iff.mp hG
  obtain ⟨t, hB, hR, hl⟩ := hw
  obtain ⟨v, l⟩ := w
  obtain rfl : t.lh = l := hl
  have hrun := wp_sound (serve_quiet hsb (g := .strict) trivial id) hB (Vol.wp_code hsb hR hsafe.1 hroom)
  rw [show icall sb o s = (o.code sb).run serve s from rfl]
  cases hr : (o.code sb).run serve s with
  | error e =>
    rw [hr] at hrun
    exact absurd id hrun
  | ok rs =>
    rw [hr] at hrun
    obtain ⟨t', ⟨w', hstep, hR', hl'⟩, hB'⟩ := hrun
    exact ⟨w', ⟨hstep, hR'.ok⟩, t', hB', hR', hl'⟩

/-- **From volumes to the machine, when nothing waits.** -/
theorem Logs.patiently {Q : α → Vol × List Nat → Prop} (hsb : sb.Wf) (h : s.Logs sb w)
    (hG : p.Guarded (icall sb) Patient s) (hp : p.wp (Vol.patient tot sb) Q w) :
    ∃ a s' w', p.run (icall sb) s = .ok (a, s') ∧ Q a w' ∧ s'.Logs sb w' := by
  have hsound := wp_sound_guarded (served hsb) h hG hp
  cases hr : p.run (icall sb) s with
  | error e =>
    rw [hr] at hsound
    exact absurd trivial hsound
  | ok rs =>
    grind

/-- Where the callers see to the room, nothing waits. -/
theorem Logs.guarded {Q : α → Vol × List Nat → Prop} (hsb : sb.Wf) (h : s.Logs sb w)
    (hp : p.wp (Vol.patient True sb) Q w) : p.Guarded (icall sb) Patient s :=
  wp_guarded (served hsb) (fun _ _ _ hw hsafe => hw.patient_iff.mpr (hsafe.2 trivial)) h hp

/-- A call that comes back has not found the log or the inode cache full. -/
theorem patient_of_ok {x : o.Res × Kern} (h : icall sb o s = .ok x) : Patient o s := by
  cases o with
  | beginOp =>
    have h : s.lift s.mach.beginOp = .ok x := (run_op (I := Blocks) serve .beginOp s).symm.trans h
    unfold Mach.beginOp at h
    split at h
    · next hadmits =>
      unfold Mach.admits at hadmits
      exact ⟨of_decide_eq_true (Bool.and_eq_true_iff.mp hadmits).2, trivial⟩
    · cases h
  | iget i =>
    refine ⟨trivial, ?_⟩
    have h : (Code.iget i).run (I := Blocks) serve s = .ok x := h
    unfold Code.iget at h
    obtain ⟨m, s1, hmem, h⟩ := run_bind_ok (I := Blocks) serve h
    obtain ⟨rfl, rfl⟩ := Prod.mk.inj (Except.ok.inj hmem)
    show (s.mem.iget i).isSome
    split at h
    · next hi =>
      rw [hi]
      rfl
    · cases h
  | _ => exact ⟨trivial, trivial⟩

end Kern


/-! ## Path lookup begins no operation -/

namespace Up

open Vol

theorem uses_op (h : Plain o) : (Prog.op o : Prog Inodes _).Uses Plain := ⟨h, fun _ => trivial⟩

theorem uses_fail (h : e ≠ .panic "iget: no inodes") :
    (Prog.call (.fail e) Empty.elim : Prog Inodes α).Uses Plain := ⟨h, fun r => r.elim⟩

theorem uses_iunlockput (k : Nat) : (iunlockput k).Uses Plain :=
  bind (uses_op (o := .iunlock k) trivial) fun _ => uses_op (o := .iput k) trivial

theorem uses_dirlookupFrom (dp : Nat) (name : Name) (es : List Nat) :
    (dirlookupFrom dp name es).Uses Plain := by
  induction es with
  | nil => exact .ret _
  | cons e es ih =>
    refine bind (uses_op trivial) fun r => ?_
    split
    · exact uses_fail (by decide)
    split
    · exact ih
    split
    · exact bind (uses_op trivial) fun _ => .ret _
    · exact ih

theorem uses_dirlookup (dp : Nat) (name : Name) : (dirlookup dp name).Uses Plain := by
  refine bind (uses_op trivial) fun f => ?_
  split
  · exact uses_fail (by decide)
  · exact uses_dirlookupFrom ..

theorem uses_namexFrom (parent : Bool) (fuel : Nat) :
    ∀ k path, (namexFrom parent fuel k path).Uses Plain := by
  have hend : ∀ k, (if parent then do iput k; pure none else pure (some (k, ([] : Name)))).Uses
      Plain := by
    intro k
    split
    · exact bind (uses_op trivial) fun _ => .ret _
    · exact .ret _
  induction fuel with
  | zero => intro k path; exact hend k
  | succ fuel ih =>
    intro k path
    rw [namexFrom]
    split
    · exact hend k
    refine bind (uses_op trivial) fun _ =>
      bind (uses_op trivial) fun f => ?_
    split
    · exact (uses_iunlockput k).bind fun _ => .ret _
    split
    · exact bind (uses_op trivial) fun _ => .ret _
    refine (uses_dirlookup k _).bind fun r => ?_
    split
    · exact (uses_iunlockput k).bind fun _ => .ret _
    · exact (uses_iunlockput k).bind fun _ => ih _ _

theorem uses_namei (p : Nat) (path : List UInt8) : (namei p path).Uses Plain := by
  refine bind ?_ fun _ => .ret _
  unfold namex
  split
  · exact bind (uses_op trivial) fun k => uses_namexFrom ..
  · refine bind (uses_op trivial) fun t => ?_
    split
    · exact uses_fail (by decide)
    · exact bind (uses_op trivial) fun _ => uses_namexFrom ..

end Up

end Xv6
