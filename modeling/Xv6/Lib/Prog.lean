/-
  PROGRAMS OVER AN INTERFACE: layered code as trees of calls.

  A layer of a system is written against an INTERFACE — a set of calls, each with a type of
  results — and nothing else.  `Prog I α` is a program of such a layer: it either returns, or
  performs one call and continues with the result.  The same program text then has several
  meanings, one for each way of serving its calls:

  * `run`     — the calls are served by a state machine whose calls may FAIL (a panic, a sleep
                nobody ends): the executable meaning;
  * `wp`      — the calls are served by a RELATION on an abstract state, demonically: the meaning
                the proofs use.  `Spec` bundles such a relation with the condition under which a
                call may be made;
  * `expand`  — the calls are served by PROGRAMS of the layer below.

  The two rules everything above this file rests on:

  * `wp_sound`   — what `wp` proves holds of `run`, and no failure outside `Spec.Safe` happens;
  * `wp_expand`  — a proof about the upper layer's specification is a proof about the expanded
                   program, given one SIMULATION fact for each call (`Refines`).
-/
import Mathlib.Logic.Function.Basic

namespace Prog

/-- The calls of a layer, each with the type of what it returns. -/
structure Iface where
  Op : Type
  Res : Op → Type

end Prog

open Prog in
/-- A program over `I`: a finite tree of calls, branching on their results. -/
inductive Prog (I : Iface) (α : Type) : Type
  | ret (a : α) : Prog I α
  | call (o : I.Op) (k : I.Res o → Prog I α) : Prog I α

namespace Prog

variable {I J : Iface} {α β γ σ τ ε : Type}

/-! ## The monad -/

/-- Sequencing: graft `f a` onto every leaf `ret a`. -/
protected def bind : Prog I α → (α → Prog I β) → Prog I β
  | ret a, f => f a
  | call o k, f => call o fun r => (k r).bind f

instance : Monad (Prog I) where
  pure := Prog.ret
  bind := Prog.bind

/-- One call, returning its result. -/
def op (o : I.Op) : Prog I (I.Res o) := call o ret

@[simp] theorem pure_eq (a : α) : (pure a : Prog I α) = ret a := rfl

@[simp] theorem ret_bind (a : α) (f : α → Prog I β) : (ret a >>= f) = f a := rfl

@[simp] theorem call_bind (o : I.Op) (k : I.Res o → Prog I α) (f : α → Prog I β) :
    (call o k >>= f) = call o fun r => k r >>= f := rfl

@[simp] theorem op_bind (o : I.Op) (f : I.Res o → Prog I β) : (op o >>= f) = call o f := rfl

theorem bind_assoc (p : Prog I α) (f : α → Prog I β) (g : β → Prog I γ) :
    ((p >>= f) >>= g) = p >>= fun a => f a >>= g := by
  induction p with
  | ret a => rfl
  | call o k ih =>
    simp only [call_bind]
    exact congrArg (call o) (funext ih)

theorem bind_ret (p : Prog I α) : (p >>= ret) = p := by
  induction p with
  | ret a => rfl
  | call o k ih =>
    simp only [call_bind]
    exact congrArg (call o) (funext ih)

/-! ## The executable meaning -/

/-- Serve every call by a state machine that may fail with an `ε`. -/
def run (h : (o : I.Op) → σ → Except ε (I.Res o × σ)) : Prog I α → σ → Except ε (α × σ)
  | ret a, s => .ok (a, s)
  | call o k, s =>
    match h o s with
    | .ok (r, s') => (k r).run h s'
    | .error e => .error e

section Run

variable (h : (o : I.Op) → σ → Except ε (I.Res o × σ))

@[simp] theorem run_ret (a : α) (s : σ) : (ret a : Prog I α).run h s = .ok (a, s) := rfl

theorem run_op (o : I.Op) (s : σ) : (op o).run h s = h o s := by
  simp only [op, run]
  cases h o s <;> rfl

/-- A call that comes back. -/
theorem run_call_ok {o : I.Op} {k : I.Res o → Prog I α} {s s' : σ} {r : I.Res o}
    (ho : h o s = .ok (r, s')) : (call o k).run h s = (k r).run h s' := by
  simp only [run, ho]

theorem run_bind (p : Prog I α) (f : α → Prog I β) (s : σ) : (p >>= f).run h s = match p.run h s with
      | .ok (a, s') => (f a).run h s'
      | .error e => .error e := by
  induction p generalizing s with
  | ret a => rfl
  | call o k ih =>
    simp only [call_bind, run]
    cases hs : h o s with
    | error e => rfl
    | ok rs => exact ih rs.1 rs.2

/-- A sequence that succeeds is a success of its first part and then of its second. -/
theorem run_bind_ok {p : Prog I α} {f : α → Prog I β} {s s' : σ} {b : β}
    (hr : (p >>= f).run h s = .ok (b, s')) :
    ∃ a s1, p.run h s = .ok (a, s1) ∧ (f a).run h s1 = .ok (b, s') := by
  rw [run_bind] at hr
  cases hp : p.run h s with
  | error e => rw [hp] at hr; cases hr
  | ok as => rw [hp] at hr; exact ⟨as.1, as.2, rfl, hr⟩

end Run

/-! ## Specifications of a layer, and the demonic weakest precondition -/

/-- What a layer promises: `Safe o s` is what the caller of `o` must establish, and
    `Step o s r s'` is every way the call may come back. -/
structure Spec (I : Iface) (σ : Type) where
  Safe : I.Op → σ → Prop
  Step : (o : I.Op) → σ → I.Res o → σ → Prop

/-- Every call is made safely, and `Q` holds however the calls come back. -/
def wp (S : Spec I σ) : Prog I α → (α → σ → Prop) → σ → Prop
  | ret a, Q, s => Q a s
  | call o k, Q, s => S.Safe o s ∧ ∀ r s', S.Step o s r s' → (k r).wp S Q s'

section Wp

variable {S : Spec I σ}

@[simp] theorem wp_ret {a : α} {Q : α → σ → Prop} {s : σ} : (ret a : Prog I α).wp S Q s ↔ Q a s := Iff.rfl

@[simp] theorem wp_call {o : I.Op} {k : I.Res o → Prog I α} {Q : α → σ → Prop} {s : σ} :
    (call o k).wp S Q s ↔ S.Safe o s ∧ ∀ r s', S.Step o s r s' → (k r).wp S Q s' := Iff.rfl

@[simp] theorem wp_op {o : I.Op} {Q : I.Res o → σ → Prop} {s : σ} :
    (op o).wp S Q s ↔ S.Safe o s ∧ ∀ r s', S.Step o s r s' → Q r s' := Iff.rfl

theorem wp_bind {p : Prog I α} {f : α → Prog I β} {Q : β → σ → Prop} {s : σ} :
    (p >>= f).wp S Q s ↔ p.wp S (fun a s' => (f a).wp S Q s') s := by
  induction p generalizing s with
  | ret a => exact Iff.rfl
  | call o k ih =>
    grind [call_bind, wp_call]

theorem wp_mono {p : Prog I α} {Q Q' : α → σ → Prop} {s : σ}
    (hp : p.wp S Q s) (hQ : ∀ a s', Q a s' → Q' a s') : p.wp S Q' s := by
  induction p generalizing s with
  | ret a => exact hQ a s hp
  | call o k ih => exact ⟨hp.1, fun r s' hs => ih r (hp.2 r s' hs)⟩

/-- The rule used at every `let a ← p; …`: the specification of `p`, then the rest. -/
theorem wp_seq {p : Prog I α} {f : α → Prog I β} {Q : β → σ → Prop} {R : α → σ → Prop} {s : σ}
    (hp : p.wp S R s) (hf : ∀ a s', R a s' → (f a).wp S Q s') : (p >>= f).wp S Q s :=
  wp_bind.mpr (wp_mono hp hf)

/-- Where no call is unsafe, no program is. -/
theorem wp_true (hsafe : ∀ o s, S.Safe o s) {p : Prog I α} {s : σ} : p.wp S (fun _ _ => True) s := by
  induction p generalizing s with
  | ret a => trivial
  | call o k ih => exact ⟨hsafe o s, fun r s' _ => ih r⟩

theorem wp_and {p : Prog I α} {Q Q' : α → σ → Prop} {s : σ}
    (hp : p.wp S Q s) (hp' : p.wp S Q' s) : p.wp S (fun a s' => Q a s' ∧ Q' a s') s := by
  induction p generalizing s with
  | ret a => exact ⟨hp, hp'⟩
  | call o k ih => exact ⟨hp.1, fun r s' hs => ih r (hp.2 r s' hs) (hp'.2 r s' hs)⟩

/-- The promises of `S`, to callers that make only the calls of `C`. -/
def Spec.only (S : Spec I σ) (C : I.Op → Prop) : Spec I σ := ⟨fun o s => C o ∧ S.Safe o s, S.Step⟩

theorem wp_of_only {C : I.Op → Prop} {p : Prog I α} {Q : α → σ → Prop} {s : σ}
    (hp : p.wp (S.only C) Q s) : p.wp S Q s := by
  induction p generalizing s with
  | ret a => exact hp
  | call o k ih => exact ⟨hp.1.2, fun r s' hs => ih r (hp.2 r s' hs)⟩

/-- The program makes no calls but those of `C`. -/
def Uses (C : I.Op → Prop) : Prog I α → Prop
  | ret _ => True
  | call o k => C o ∧ ∀ r, (k r).Uses C

theorem Uses.ret {C : I.Op → Prop} (a : α) : (pure a : Prog I α).Uses C := trivial

theorem Uses.bind {C : I.Op → Prop} {p : Prog I α} {f : α → Prog I β} (hp : p.Uses C)
    (hf : ∀ a, (f a).Uses C) : (p >>= f).Uses C := by
  induction p with
  | ret a => exact hf a
  | call o k ih => exact ⟨hp.1, fun r => ih r (hp.2 r)⟩

/-- What is proved of a program is proved of it as one that makes no other calls. -/
theorem Uses.wp_only {C : I.Op → Prop} {p : Prog I α} {Q : α → σ → Prop} {s : σ} (hu : p.Uses C)
    (hp : p.wp S Q s) : p.wp (S.only C) Q s := by
  induction p generalizing s with
  | ret a => exact hp
  | call o k ih => exact ⟨⟨hu.1, hp.1⟩, fun r s' hs => ih r (hu.2 r) (hp.2 r s' hs)⟩

/-- **Another specification.** A proof carries over to a specification, perhaps of other states, that says
    as much about the calls that are made. -/
theorem wp_transfer {C : I.Op → Prop} {S' : Spec I τ} {R : τ → σ → Prop}
    (hsafe : ∀ o t s, R t s → C o → S.Safe o s → S'.Safe o t)
    (hstep : ∀ o t s r t', R t s → C o → S'.Step o t r t' → ∃ s', S.Step o s r s' ∧ R t' s')
    {p : Prog I α} {Q : α → σ → Prop} {s : σ} {t : τ} (hu : p.Uses C) (hR : R t s) (hp : p.wp S Q s) :
    p.wp S' (fun a t' => ∃ s', Q a s' ∧ R t' s') t := by
  induction p generalizing s t with
  | ret a => exact ⟨s, hp, hR⟩
  | call o k ih =>
    refine ⟨hsafe o t s hR hu.1 hp.1, ?_⟩
    intro r t' h
    obtain ⟨s', hs, hR'⟩ := hstep o t s r t' hR hu.1 h
    exact ih r (hu.2 r) hR' (hp.2 r s' hs)

/-! ## Triples -/

/-- From every state in `P` the program is safe and ends in `Q`. -/
def Triple (S : Spec I σ) (P : σ → Prop) (p : Prog I α) (Q : α → σ → Prop) : Prop :=
  ∀ s, P s → p.wp S Q s

namespace Triple

variable {P : σ → Prop} {p : Prog I α} {Q : α → σ → Prop}

theorem ret {a : α} (h : ∀ s, P s → Q a s) : Triple S P (pure a) Q := h

theorem skip {a : α} : Triple S P (pure a) fun _ => P := fun _ h => h

theorem seq {f : α → Prog I β} {R : β → σ → Prop} (hp : Triple S P p Q)
    (hf : ∀ a, Triple S (Q a) (f a) R) : Triple S P (p >>= f) R :=
  fun s hs => wp_seq (hp s hs) hf

theorem post {Q' : α → σ → Prop} (hp : Triple S P p Q) (h : ∀ a s, Q a s → Q' a s) :
    Triple S P p Q' := fun s hs => wp_mono (hp s hs) h

/-- A fact that does not depend on the state is a hypothesis. -/
theorem given {c : Prop} (h : c → Triple S P p Q) : Triple S (fun s => c ∧ P s) p Q :=
  fun s hs => h hs.1 s hs.2

theorem exists_ {ι : Type} {P : ι → σ → Prop} (h : ∀ x, Triple S (P x) p Q) :
    Triple S (fun s => ∃ x, P x s) p Q := fun s ⟨x, hx⟩ => h x s hx

end Triple

end Wp

/-! ## The two soundness rules -/

variable {h : (o : I.Op) → σ → Except ε (I.Res o × σ)} {bad : ε → Prop} {G : I.Op → σ → Prop}
  {S : Spec I τ} {R : σ → τ → Prop} {p : Prog I α} {Q : α → τ → Prop} {s s' : σ} {t : τ}

/-- The machine `h` keeps the promises of `S` on states related by `R`: a call that comes back
    comes back as `S` allows, and a SAFE call does not fail with a `bad` failure. -/
def Serves (h : (o : I.Op) → σ → Except ε (I.Res o × σ)) (bad : ε → Prop) (S : Spec I τ)
    (R : σ → τ → Prop) : Prop :=
  ∀ o s t, R s t → S.Safe o t → match h o s with
    | .ok (r, s') => ∃ t', S.Step o t r t' ∧ R s' t'
    | .error e => ¬ bad e

theorem Serves.only {C : I.Op → Prop} (hh : Serves h bad S R) : Serves h bad (S.only C) R :=
  fun o s t hR hsafe => hh o s t hR hsafe.2

/-- **Soundness.** A proof about the specification is a proof about the machine. -/
theorem wp_sound (hh : Serves h bad S R) (hR : R s t) (hp : p.wp S Q t) : match p.run h s with
    | .ok (a, s') => ∃ t', Q a t' ∧ R s' t'
    | .error e => ¬ bad e := by
  induction p generalizing s t with
  | ret a => exact ⟨t, hp, hR⟩
  | call o k ih =>
    have ho := hh o s t hR hp.1
    simp only [run]
    cases hs : h o s with
    | error e => rw [hs] at ho; exact ho
    | ok rs =>
      rw [hs] at ho
      obtain ⟨t', ht, hR'⟩ := ho
      exact ih rs.1 hR' (hp.2 _ _ ht)

/-- In its run from `s` the program makes the call `o`, in the state `s'`. -/
inductive Makes (h : (o : I.Op) → σ → Except ε (I.Res o × σ)) :
    Prog I α → σ → I.Op → σ → Prop
  | here (o : I.Op) (k : I.Res o → Prog I α) (s : σ) : Makes h (call o k) s o s
  | later {o o' : I.Op} {k : I.Res o → Prog I α} {r : I.Res o} {s s1 s' : σ}
      (hs : h o s = .ok (r, s1)) (hm : Makes h (k r) s1 o' s') : Makes h (call o k) s o' s'

/-- **Soundness on the way.** Every call of the run is made safely, in a state that the specification
    knows. -/
theorem wp_makes (hh : Serves h bad S R) {o : I.Op} (hm : p.Makes h s o s') (hR : R s t) (hp : p.wp S Q t) :
    ∃ t', R s' t' ∧ S.Safe o t' := by
  induction hm generalizing t with
  | here o k s => exact ⟨t, hR, hp.1⟩
  | @later o o' k r s s1 s' hs hm ih =>
    have ho := hh o s t hR hp.1
    rw [hs] at ho
    obtain ⟨t1, ht, hR1⟩ := ho
    exact ih hR1 (hp.2 r t1 ht)

/-- Serve every call of `I` by a program over `J`. -/
def expand (impl : (o : I.Op) → Prog J (I.Res o)) : Prog I α → Prog J α
  | ret a => ret a
  | call o k => impl o >>= fun r => (k r).expand impl

/-- `impl` refines `S`, seen through `R`: each safe call, served by its program, steps as `S`
    allows. -/
def Refines (impl : (o : I.Op) → Prog J (I.Res o)) (S : Spec I τ) (T : Spec J σ)
    (R : σ → τ → Prop) : Prop :=
  ∀ o s t, R s t → S.Safe o t → (impl o).wp T (fun r s' => ∃ t', S.Step o t r t' ∧ R s' t') s

/-- **Simulation.** A proof about the upper specification is a proof about the expanded code. -/
theorem wp_expand {impl : (o : I.Op) → Prog J (I.Res o)} {T : Spec J σ} (hi : Refines impl S T R)
    (hR : R s t) (hp : p.wp S Q t) :
    (p.expand impl).wp T (fun a s' => ∃ t', Q a t' ∧ R s' t') s := by
  induction p generalizing s t with
  | ret a => exact ⟨t, hp, hR⟩
  | call o k ih =>
    refine wp_seq (hi o s t hR hp.1) ?_
    rintro r s' ⟨t', ht, hR'⟩
    exact ih r hR' (hp.2 r t' ht)

/-- Running the expanded program is running the program with every call served by its expansion. -/
theorem run_expand (h : (o : J.Op) → σ → Except ε (J.Res o × σ))
    (impl : (o : I.Op) → Prog J (I.Res o)) (p : Prog I α) (s : σ) :
    (p.expand impl).run h s = p.run (fun o s => (impl o).run h s) s := by
  induction p generalizing s with
  | ret a => rfl
  | call o k ih =>
    simp only [expand, run_bind, run]
    cases (impl o).run h s with
    | error e => rfl
    | ok rs => exact ih rs.1 rs.2

/-! ## Runs under an assumption -/

/-- Every call of the run is made in a state that meets `G`. -/
def Guarded (h : (o : I.Op) → σ → Except ε (I.Res o × σ)) (G : I.Op → σ → Prop) : Prog I α → σ → Prop
  | ret _, _ => True
  | call o k, s => G o s ∧
    match h o s with
    | .ok (r, s') => (k r).Guarded h G s'
    | .error _ => True

theorem guarded_call {o : I.Op} {k : I.Res o → Prog I α} :
    (call o k).Guarded h G s ↔ G o s ∧ ∀ r s', h o s = .ok (r, s') → (k r).Guarded h G s' := by
  rw [Guarded]
  refine and_congr_right fun _ => ?_
  cases h o s with
  | error e => simp
  | ok rs =>
    grind

/-- A run that comes back meets what every call that comes back does. -/
theorem guarded_of_ok (hG : ∀ o s x, h o s = .ok x → G o s) {x : α × σ} (hr : p.run h s = .ok x) :
    p.Guarded h G s := by
  induction p generalizing s with
  | ret a => trivial
  | call o k ih =>
    rw [run] at hr
    cases hs : h o s with
    | error e =>
      rw [hs] at hr
      cases hr
    | ok rs =>
      grind [guarded_call]

/-- Whether every call meets `G` is seen by running the program. -/
instance decidableGuarded (h : (o : I.Op) → σ → Except ε (I.Res o × σ)) (G : I.Op → σ → Prop)
    [hG : ∀ o s, Decidable (G o s)] : (p : Prog I α) → (s : σ) → Decidable (p.Guarded h G s)
  | ret _, _ => isTrue trivial
  | call o k, s =>
    match hs : h o s with
    | .ok (r, s') =>
      have := decidableGuarded h G (k r) s'
      decidable_of_iff (G o s ∧ (k r).Guarded h G s') (by rw [Guarded, hs])
    | .error _ => decidable_of_iff (G o s) (by rw [Guarded, hs]; exact (and_iff_left trivial).symm)

/-- The machine keeps its promises when the calls meet `G`. -/
def ServesWhen (h : (o : I.Op) → σ → Except ε (I.Res o × σ)) (G : I.Op → σ → Prop)
    (bad : ε → Prop) (S : Spec I τ) (R : σ → τ → Prop) : Prop :=
  ∀ o s t, R s t → G o s → S.Safe o t → match h o s with
    | .ok (r, s') => ∃ t', S.Step o t r t' ∧ R s' t'
    | .error e => ¬ bad e

/-- The calls that come back and the calls that fail, one by one. -/
theorem ServesWhen.of_cases
    (hok : ∀ o s t r s', R s t → G o s → S.Safe o t → h o s = .ok (r, s') → ∃ t', S.Step o t r t' ∧ R s' t')
    (herr : ∀ o s t e, R s t → G o s → S.Safe o t → h o s = .error e → ¬ bad e) :
    ServesWhen h G bad S R := by
  intro o s t hR hG hsafe
  cases hs : h o s with
  | error e => exact herr o s t e hR hG hsafe hs
  | ok rs => exact hok o s t rs.1 rs.2 hR hG hsafe hs

/-- **Soundness, under an assumption.** -/
theorem wp_sound_guarded (hh : ServesWhen h G bad S R) (hR : R s t) (hG : p.Guarded h G s)
    (hp : p.wp S Q t) :
    match p.run h s with
    | .ok (a, s') => ∃ t', Q a t' ∧ R s' t'
    | .error e => ¬ bad e := by
  induction p generalizing s t with
  | ret a => exact ⟨t, hp, hR⟩
  | call o k ih =>
    obtain ⟨hg, hk⟩ := guarded_call.mp hG
    have ho := hh o s t hR hg hp.1
    simp only [run]
    cases hs : h o s with
    | error e => rw [hs] at ho; exact ho
    | ok rs =>
      rw [hs] at ho
      obtain ⟨t', ht, hR'⟩ := ho
      exact ih rs.1 hR' (hk _ _ hs) (hp.2 _ _ ht)

/-- A program meets the assumption where every safe call does. -/
theorem wp_guarded (hh : ServesWhen h G bad S R) (hG : ∀ o s t, R s t → S.Safe o t → G o s)
    (hR : R s t) (hp : p.wp S Q t) : p.Guarded h G s := by
  induction p generalizing s t with
  | ret a => trivial
  | call o k ih =>
    have hg := hG o s t hR hp.1
    have ho := hh o s t hR hg hp.1
    refine guarded_call.mpr ⟨hg, ?_⟩
    intro r s' hs
    rw [hs] at ho
    obtain ⟨t', ht, hR'⟩ := ho
    exact ih r hR' (hp.2 r t' ht)

/-- A run that also tests every call: what it returned, if it came back and no test failed. -/
def check (h : (o : I.Op) → σ → Except ε (I.Res o × σ)) (g : I.Op → σ → Bool) :
    Prog I α → σ → Option (α × σ)
  | ret a, s => some (a, s)
  | call o k, s =>
    if g o s then
      match h o s with
      | .ok (r, s') => (k r).check h g s'
      | .error _ => none
    else none

theorem check_sound {g : I.Op → σ → Bool} (hg : ∀ o s, g o s = true → G o s) {r : α × σ}
    (hc : p.check h g s = some r) : p.run h s = .ok r ∧ p.Guarded h G s := by
  induction p generalizing s with
  | ret a =>
    obtain rfl := Option.some.inj hc
    exact ⟨rfl, trivial⟩
  | call o k ih =>
    rw [check] at hc
    cases hgo : g o s with
    | false =>
      rw [hgo] at hc
      cases hc
    | true =>
      rw [hgo, if_pos rfl] at hc
      rw [guarded_call]
      simp only [run]
      cases hs : h o s with
      | error e =>
        rw [hs] at hc
        cases hc
      | ok rs =>
        grind

/-- `s'` is a state of the run of a program from `s`: before its first call, between two calls, or at
    its end.  Every call so far met `G`. -/
inductive Visits (h : (o : I.Op) → σ → Except ε (I.Res o × σ)) (G : I.Op → σ → Prop) :
    Prog I α → σ → σ → Prop
  | here (p : Prog I α) (s : σ) : Visits h G p s s
  | call {o : I.Op} {k : I.Res o → Prog I α} {r : I.Res o} {s s1 s' : σ} (hg : G o s)
      (hs : h o s = .ok (r, s1)) (hv : Visits h G (k r) s1 s') : Visits h G (call o k) s s'

/-- The relation to the specification holds in every state on the way. -/
theorem wp_visits (hh : ServesWhen h G bad S R) (hR : R s t) (hp : p.wp S Q t)
    (hv : Visits h G p s s') : ∃ t', R s' t' := by
  induction hv generalizing t with
  | here p s => exact ⟨t, hR⟩
  | @call o k r s s1 s' hg hs hv ih =>
    have ho := hh o s t hR hg hp.1
    rw [hs] at ho
    obtain ⟨t1, ht, hR1⟩ := ho
    exact ih hR1 (hp.2 r t1 ht)

end Prog
