/-
  WHO OWNS WHAT: an allocator's books.

  A pool of resources is handed out; PLACES refer to them.  The books are in order when a resource
  is in use exactly if some place refers to it or it is RESERVED — taken from the pool and not yet
  referred to, or set aside for good — and no resource is referred to twice.

  Four moves keep them in order, and every program that takes, stores, drops and gives back
  resources is a sequence of them:

      free  --take-->  reserved  --attach-->  referred to
            <--give--            <--detach--
-/
import Mathlib.Logic.Function.Basic

namespace Owner

variable {ι β : Type} {used used' : β → Prop} {Ref Ref' : ι → β → Prop} {X X' : β → Prop} {b : β}

/-- The books are in order. -/
structure Owned (used : β → Prop) (Ref : ι → β → Prop) (X : β → Prop) : Prop where
  inj : ∀ {i j b}, Ref i b → Ref j b → i = j
  used_iff : ∀ b, used b ↔ X b ∨ ∃ i, Ref i b
  apart : ∀ {i b}, Ref i b → ¬ X b

namespace Owned

section

variable (h : Owned used Ref X)
include h

theorem congr (hu : ∀ b, used' b ↔ used b) (hr : ∀ i b, Ref' i b ↔ Ref i b)
    (hx : ∀ b, X' b ↔ X b) : Owned used' Ref' X' := by
  obtain rfl : used' = used := funext fun b => propext (hu b)
  obtain rfl : Ref' = Ref := funext fun i => funext fun b => propext (hr i b)
  obtain rfl : X' = X := funext fun b => propext (hx b)
  exact h

theorem ref_used {i : ι} (hr : Ref i b) : used b :=
  (h.used_iff b).mpr (.inr ⟨i, hr⟩)

theorem reserved_used (hx : X b) : used b := (h.used_iff b).mpr (.inl hx)

/-- Take a resource from the pool. -/
theorem take (hb : ¬ used b) : Owned (fun c => used c ∨ c = b) Ref fun c => X c ∨ c = b := by
  refine ⟨h.inj, fun c => ?_, fun {i c} hr hx => ?_⟩
  · grind [Owned]
  · rcases hx with hx | rfl
    · exact h.apart hr hx
    · exact hb (h.ref_used hr)

/-- Give a reserved resource back. -/
theorem give (hb : X b) : Owned (fun c => used c ∧ c ≠ b) Ref fun c => X c ∧ c ≠ b := by
  refine ⟨h.inj, fun c => ?_, fun {i c} hr hx => h.apart hr hx.1⟩
  rw [h.used_iff c]
  constructor
  · rintro ⟨hx | hr, hc⟩
    · exact .inl ⟨hx, hc⟩
    · exact .inr hr
  · grind [Owned]

/-- Let a place refer to a reserved resource. -/
theorem attach {i : ι} (hb : X b) :
    Owned used (fun j c => Ref j c ∨ j = i ∧ c = b) fun c => X c ∧ c ≠ b := by
  refine ⟨fun {j k c} hj hk => ?_, fun c => ?_, fun {j c} hr hx => ?_⟩
  · grind [Owned]
  · grind [Owned]
  · rcases hr with hr | ⟨-, rfl⟩
    · exact h.apart hr hx.1
    · exact hx.2 rfl

/-- Make some places forget what they refer to. -/
theorem detach (S : ι → Prop) :
    Owned used (fun j c => Ref j c ∧ ¬ S j) fun c => X c ∨ ∃ j, S j ∧ Ref j c := by
  refine ⟨fun hj hk => h.inj hj.1 hk.1, fun c => ?_, fun {j c} hr hx => ?_⟩
  · grind [Owned]
  · rcases hx with hx | ⟨k, hS, hk⟩
    · exact h.apart hr.1 hx
    · exact hr.2 (h.inj hk hr.1 ▸ hS)

end

end Owned

end Owner
