import Mathlib.Logic.Basic

/-! Programs as dialogues with a world that answers.

A program returns, or makes a request and goes on with the answer. What it computes
in between shows in the requests it makes and in what it returns. A run serves the
requests one after another, lets the world move before each of them, and may be cut
off at any of them. -/
namespace ControlTower.Data
open List

inductive Dialogue (Q : Type) (A : Q → Type) (R : Type) where
  | ret (r : R)
  | ask (q : Q) (next : A q → Dialogue Q A R)

namespace Dialogue
variable {Q : Type} {A : Q → Type} {R T : Type}

def bind : Dialogue Q A R → (R → Dialogue Q A T) → Dialogue Q A T
  | ret r, k => k r
  | ask q next, k => ask q fun a => (next a).bind k

instance : Monad (Dialogue Q A) where
  pure := ret
  bind := bind

/-- One request, and its answer. -/
def request (q : Q) : Dialogue Q A (A q) := ask q ret

/-! ### What a program may ask and return -/

/-- Whatever the answers are, every request satisfies `P` and every result `post`. -/
def Spec (P : Q → Prop) (post : R → Prop) : Dialogue Q A R → Prop
  | ret r => post r
  | ask q next => P q ∧ ∀ a, (next a).Spec P post

variable {P : Q → Prop} {post : R → Prop}

@[simp] theorem spec_pure {r : R} : (pure r : Dialogue Q A R).Spec P post ↔ post r := Iff.rfl

variable {d : Dialogue Q A R}

theorem spec_bind {k : R → Dialogue Q A T} {post : T → Prop} :
    (d >>= k).Spec P post ↔ d.Spec P fun r => (k r).Spec P post := by
  change (d.bind k).Spec P post ↔ _
  induction d with
  | ret r => exact Iff.rfl
  | ask q next ih => exact and_congr_right fun _ => forall_congr' ih

theorem Spec.imp {P' : Q → Prop} {post' : R → Prop} (h : d.Spec P post)
    (hP : ∀ q, P q → P' q) (hpost : ∀ r, post r → post' r) : d.Spec P' post' := by
  induction d with
  | ret r => exact hpost r h
  | ask q next ih => exact ⟨hP q h.1, fun a => ih a (h.2 a)⟩

/-- What follows may rely on what was returned. -/
theorem Spec.bind {k : R → Dialogue Q A T} {post' : T → Prop} (h : d.Spec P post)
    (hk : ∀ r, post r → (k r).Spec P post') : (d >>= k).Spec P post' :=
  spec_bind.mpr (h.imp (fun _ hq => hq) hk)

/-- What a program asks first, and what it returns at once. -/
def first : Dialogue Q A R → Option Q
  | ret _ => none
  | ask q _ => some q

def returned : Dialogue Q A R → Option R
  | ret r => some r
  | ask _ _ => none

theorem Spec.first {q : Q} (h : d.Spec P post) (hq : d.first = some q) : P q := by
  cases d with
  | ret r => cases hq
  | ask q' next => cases hq; exact h.1

theorem Spec.returned {r : R} (h : d.Spec P post) (hr : d.returned = some r) : post r := by
  cases d with
  | ret r' => cases hr; exact h
  | ask q next => cases hr

/-! ### Runs -/

/-- What the world does up to the next request, and how it would answer one. -/
structure Turn (Q : Type) (A : Q → Type) (E : Type) where
  events : List E
  answer : (q : Q) → A q

section Run
variable {S E : Type} (move : S → E → S) (serve : S → (q : Q) → A q → A q × S)

/-- Serve the requests while there are turns; the program is cut off where they end. -/
def run : Dialogue Q A R → S → List (Turn Q A E) → S
  | ret _, s, _ => s
  | ask _ _, s, [] => s
  | ask q next, s, turn :: turns =>
    let served := serve (turn.events.foldl move s) q (turn.answer q)
    run (next served.1) served.2 turns

/-- What a run returns, unless it is cut off, and where it ends. -/
def outcome : Dialogue Q A R → S → List (Turn Q A E) → Option R × S
  | ret r, s, _ => (some r, s)
  | ask _ _, s, [] => (none, s)
  | ask q next, s, turn :: turns =>
    let served := serve (turn.events.foldl move s) q (turn.answer q)
    outcome (next served.1) served.2 turns

/-- The requests of a run, the one at which it is cut off among them. -/
def asked : Dialogue Q A R → S → List (Turn Q A E) → List Q
  | ret _, _, _ => []
  | ask q _, _, [] => [q]
  | ask q next, s, turn :: turns =>
    let served := serve (turn.events.foldl move s) q (turn.answer q)
    q :: asked (next served.1) served.2 turns

variable {move serve} {Inv : S → Prop}

variable {d : Dialogue Q A R}

/-- What a program may ask and return holds of what a run asks and returns. -/
theorem Spec.run (h : d.Spec P post) (s : S) (turns : List (Turn Q A E)) :
    (∀ q ∈ d.asked move serve s turns, P q) ∧ ∀ r ∈ (d.outcome move serve s turns).1, post r := by
  induction d generalizing s turns with
  | ret r => exact ⟨by simp [asked], fun r' hr => by cases hr; exact h⟩
  | ask q next ih =>
    cases turns with
    | nil => exact ⟨by simpa [asked] using h.1, by simp [outcome]⟩
    | cons turn turns =>
      obtain ⟨hasked, hreturned⟩ := ih _ (h.2 _) _ turns
      exact ⟨forall_mem_cons.mpr ⟨h.1, hasked⟩, hreturned⟩

/-- An invariant of the world's moves that every request of the program keeps. -/
theorem run_inv (hmove : ∀ s e, Inv s → Inv (move s e))
    (hd : d.Spec (fun q => ∀ s a, Inv s → Inv (serve s q a).2) fun _ => True)
    (turns : List (Turn Q A E)) {s : S} (h : Inv s) : Inv (d.run move serve s turns) := by
  induction d generalizing s turns with
  | ret r => exact h
  | ask q next ih =>
    cases turns with
    | nil => exact h
    | cons turn turns =>
      have hmoved : Inv (turn.events.foldl move s) :=
        turn.events.foldlRecOn move h fun s hs e _ => hmove s e hs
      exact ih _ (hd.2 _) turns (hd.1 _ _ hmoved)

/-! ### What a run ensures -/

variable (move serve) in
/-- A run from `s` makes a request of `beyond`, or returns to what `post` says of its
result, the state and the turns left, or is cut off in a state of `cut`. -/
def Ensures (beyond : Q → Prop) (post : R → S → List (Turn Q A E) → Prop) (cut : S → Prop) :
    Dialogue Q A R → S → List (Turn Q A E) → Prop
  | ret r, s, turns => post r s turns
  | ask q next, s, turns => beyond q ∨ match turns with
    | [] => cut s
    | turn :: turns =>
      let served := serve (turn.events.foldl move s) q (turn.answer q)
      Ensures beyond post cut (next served.1) served.2 turns

variable {beyond : Q → Prop} {post : R → S → List (Turn Q A E) → Prop} {cut : S → Prop} {s : S}
  {turns : List (Turn Q A E)}

theorem Ensures.imp {post' : R → S → List (Turn Q A E) → Prop}
    (h : d.Ensures move serve beyond post cut s turns)
    (himp : ∀ r s turns, post r s turns → post' r s turns) :
    d.Ensures move serve beyond post' cut s turns := by
  induction d generalizing s turns with
  | ret r => exact himp r s turns h
  | ask q next ih =>
    cases turns with
    | nil => exact h
    | cons turn turns => exact h.imp_right fun h => ih _ h

theorem ensures_bind {k : R → Dialogue Q A T} {post : T → S → List (Turn Q A E) → Prop} :
    (d >>= k).Ensures move serve beyond post cut s turns ↔
      d.Ensures move serve beyond (fun r s turns => (k r).Ensures move serve beyond post cut s turns)
        cut s turns := by
  change (d.bind k).Ensures move serve beyond post cut s turns ↔ _
  induction d generalizing s turns with
  | ret r => exact Iff.rfl
  | ask q next ih =>
    cases turns with
    | nil => exact Iff.rfl
    | cons turn turns => exact or_congr_right (ih _)

/-- What follows may rely on where the first part ends. -/
theorem Ensures.bind {k : R → Dialogue Q A T}
    {post' : T → S → List (Turn Q A E) → Prop} (h : d.Ensures move serve beyond post cut s turns)
    (hk : ∀ r s turns, post r s turns → (k r).Ensures move serve beyond post' cut s turns) :
    (d >>= k).Ensures move serve beyond post' cut s turns :=
  ensures_bind.mpr (h.imp hk)

theorem Ensures.run (h : d.Ensures move serve beyond (fun _ s _ => Inv s) Inv s turns)
    (hasked : ∀ q ∈ d.asked move serve s turns, ¬beyond q) : Inv (d.run move serve s turns) := by
  induction d generalizing s turns with
  | ret r => exact h
  | ask q next ih =>
    cases turns with
    | nil => exact h.resolve_left (hasked q mem_cons_self)
    | cons turn turns =>
      have hnext := h.resolve_left (hasked q mem_cons_self)
      exact ih _ hnext fun q hq => hasked q (mem_cons_of_mem _ hq)

end Run

/-! ### Programs that keep to a protocol -/

section Protocol
variable {G S E : Type} (allowed : G → Q → Prop) (after : G → (q : Q) → A q → G)

/-- Whatever the answers are, every request is one that the stage allows which the
requests and answers before it have led to. -/
def Follows : G → Dialogue Q A R → Prop
  | _, ret _ => True
  | g, ask q next => allowed g q ∧ ∀ a, Follows (after g q a) (next a)

variable {allowed after} {move : S → E → S} {serve : S → (q : Q) → A q → A q × S} {Inv : G → S → Prop}

/-- What ties the world to the stage holds wherever a run ends or is cut off. -/
theorem Follows.run (hmove : ∀ g s e, Inv g s → Inv g (move s e))
    (hserve : ∀ g s q a, Inv g s → allowed g q → Inv (after g q (serve s q a).1) (serve s q a).2) {d : Dialogue Q A R} {g : G}
    (hd : d.Follows allowed after g) (turns : List (Turn Q A E)) {s : S} (h : Inv g s) :
    ∃ g', Inv g' (d.run move serve s turns) := by
  induction d generalizing g s turns with
  | ret r => exact ⟨g, h⟩
  | ask q next ih =>
    cases turns with
    | nil => exact ⟨g, h⟩
    | cons turn turns =>
      have hmoved : Inv g (turn.events.foldl move s) := turn.events.foldlRecOn move h fun s hs e _ => hmove g s e hs
      exact ih _ (hd.2 _) turns (hserve g _ q _ hmoved hd.1)

variable (allowed after) in
/-- As `Follows`, with what the last stage says of the result. -/
def Leads (done : G → R → Prop) : G → Dialogue Q A R → Prop
  | g, ret r => done g r
  | g, ask q next => allowed g q ∧ ∀ a, Leads done (after g q a) (next a)

theorem Leads.outcome {done : G → R → Prop} (hmove : ∀ g s e, Inv g s → Inv g (move s e))
    (hserve : ∀ g s q a, Inv g s → allowed g q → Inv (after g q (serve s q a).1) (serve s q a).2) {d : Dialogue Q A R} {g : G}
    (hd : d.Leads allowed after done g) (turns : List (Turn Q A E)) {s : S} (h : Inv g s) :
    ∃ g', Inv g' (d.outcome move serve s turns).2 ∧ ∀ r, (d.outcome move serve s turns).1 = some r → done g' r := by
  induction d generalizing g s turns with
  | ret r =>
    refine ⟨g, h, fun r' hr => ?_⟩
    cases hr
    exact hd
  | ask q next ih =>
    cases turns with
    | nil => exact ⟨g, h, by simp [Dialogue.outcome]⟩
    | cons turn turns =>
      have hmoved : Inv g (turn.events.foldl move s) := turn.events.foldlRecOn move h fun s hs e _ => hmove g s e hs
      exact ih _ (hd.2 _) turns (hserve g _ q _ hmoved hd.1)

end Protocol

/-! ### Runs with a record -/

section Record
variable {S S' E : Type} {move : S → E → S} {serve : S → (q : Q) → A q → A q × S}
  {move' : S' → E → S'} {serve' : S' → (q : Q) → A q → A q × S'}

/-- What is recorded beside the state does not change the run. -/
theorem run_forget (forget : S' → S) (hmove : ∀ s e, forget (move' s e) = move (forget s) e)
    (hserve : ∀ s q a, (serve' s q a).1 = (serve (forget s) q a).1 ∧
      forget (serve' s q a).2 = (serve (forget s) q a).2)
    (d : Dialogue Q A R) (s : S') (turns : List (Turn Q A E)) :
    forget (d.run move' serve' s turns) = d.run move serve (forget s) turns ∧
      d.asked move' serve' s turns = d.asked move serve (forget s) turns := by
  induction d generalizing s turns with
  | ret r => exact ⟨rfl, rfl⟩
  | ask q next ih =>
    cases turns with
    | nil => exact ⟨rfl, rfl⟩
    | cons turn turns =>
      have hmoved : forget (turn.events.foldl move' s) = turn.events.foldl move (forget s) :=
        (foldl_hom forget fun s e => (hmove s e).symm).symm
      obtain ⟨hanswer, hstate⟩ := hserve (turn.events.foldl move' s) q (turn.answer q)
      simp only [run, asked]
      rw [(ih _ _ _).1, (ih _ _ _).2, hstate, hanswer, hmoved]
      exact ⟨rfl, rfl⟩

end Record
end Dialogue
end ControlTower.Data
