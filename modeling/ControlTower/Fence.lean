import Mathlib.Logic.Function.Basic
import Mathlib.Data.List.Basic

/-! A version fence: decisions taken on a snapshot that may have grown old.

Jobs work on keys, each key behind a guard that one job holds at a time. A fenced
job acts on a snapshot that some session took earlier, perhaps long before the
job got its guard. What keeps it from undoing newer work is one counter that all
keys share: a session loads the counter *before* it reads the store, a job that
wrote stamps the guard with the counter's next value before it lets go, and a
fenced job goes on only if its guard's stamp is not above what its session loaded.

`fenced_sees`: then everything written to the key since the snapshot was written
by the job itself or by nobody who uses the guard. -/
namespace Fence
open List Function

/-- How far a job has got. -/
inductive Phase where
  | waiting
  | locked
  | running
  | stamped (v : Nat)
  | released (stamp : Option Nat)
deriving DecidableEq

structure Guard (J : Type) where
  holder : Option J
  version : Nat

/-- A session loads the counter, then copies the store. -/
inductive Session (K J W : Type) where
  | fresh
  | loaded (n : Nat)
  | read (n : Nat) (snapshot : K → List (Option J × W))

/-- The log of a key holds every write to it, with the job that made it; nobody
for one made outside the guards. -/
structure State (K J I W : Type) where
  counter : Nat
  guard : K → Guard J
  log : K → List (Option J × W)
  phase : J → Phase
  session : I → Session K J W

inductive Action (K J I W : Type) where
  | load (i : I)
  | read (i : I)
  | acquire (j : J)
  /-- Let go of the guard without having written. -/
  | quit (j : J)
  | start (j : J)
  | write (j : J) (w : W)
  | stamp (j : J)
  | release (j : J)
  /-- A write by someone who takes no guard. -/
  | other (k : K) (w : W)

section Machine
variable {K J I W : Type} [DecidableEq K] [DecidableEq J] [DecidableEq I]
variable (key : J → K) (fence : J → Option I)

def State.initial : State K J I W :=
  ⟨0, fun _ => ⟨none, 0⟩, fun _ => [], fun _ => .waiting, fun _ => .fresh⟩

/-- A fenced job may go on: its session read the store and loaded a counter that
the guard's stamp does not exceed. -/
def State.passes (s : State K J I W) (j : J) : Bool :=
  match fence j with
  | none => true
  | some i => match s.session i with
    | .read n _ => (s.guard (key j)).version ≤ n
    | _ => false

def State.setPhase (s : State K J I W) (j : J) (p : Phase) : State K J I W :=
  {s with phase := Function.update s.phase j p}

def State.setGuard (s : State K J I W) (k : K) (g : Guard J) : State K J I W :=
  {s with guard := Function.update s.guard k g}

def State.append (s : State K J I W) (k : K) (e : Option J × W) : State K J I W :=
  {s with log := Function.update s.log k (s.log k ++ [e])}

def State.setSession (s : State K J I W) (i : I) (x : Session K J W) : State K J I W :=
  {s with session := Function.update s.session i x}

/-- What an action does, when it can happen. -/
def step (s : State K J I W) : Action K J I W → Option (State K J I W)
  | .load i => match s.session i with
    | .fresh => some (s.setSession i (.loaded s.counter))
    | _ => none
  | .read i => match s.session i with
    | .loaded n => some (s.setSession i (.read n s.log))
    | _ => none
  | .acquire j => match s.phase j, (s.guard (key j)).holder with
    | .waiting, none =>
      some ((s.setPhase j .locked).setGuard (key j) ⟨some j, (s.guard (key j)).version⟩)
    | _, _ => none
  | .quit j => match s.phase j with
    | .locked =>
      some ((s.setPhase j (.released none)).setGuard (key j) ⟨none, (s.guard (key j)).version⟩)
    | _ => none
  | .start j => match s.phase j with
    | .locked => if s.passes key fence j then some (s.setPhase j .running) else none
    | _ => none
  | .write j w => match s.phase j with
    | .running => some (s.append (key j) (some j, w))
    | _ => none
  | .stamp j => match s.phase j with
    | .running => some {(s.setPhase j (.stamped (s.counter + 1))).setGuard (key j)
        ⟨(s.guard (key j)).holder, s.counter + 1⟩ with counter := s.counter + 1}
    | _ => none
  | .release j => match s.phase j with
    | .stamped v =>
      some ((s.setPhase j (.released (some v))).setGuard (key j) ⟨none, (s.guard (key j)).version⟩)
    | _ => none
  | .other k w => some (s.append k (none, w))

/-- A run of actions, each of which happened. -/
inductive Reachable : State K J I W → Prop
  | initial : Reachable State.initial
  | step {s s' : State K J I W} (a : Action K J I W) : Reachable s → step key fence s a = some s' →
      Reachable s'

end Machine

/-! ### The invariant -/

section Invariant
variable {K J I W : Type} (key : J → K) (fence : J → Option I)

/-- The job holds its guard. -/
def Phase.active : Phase → Bool
  | .locked | .running | .stamped _ => true
  | _ => false

/-- The stamp the job left or is about to leave. -/
def Phase.stamp : Phase → Option Nat
  | .stamped v => some v
  | .released stamp => stamp
  | _ => none

/-- Since the snapshot, only these wrote. -/
def Since (snapshot log : List (Option J × W)) (P : Option J → Prop) : Prop :=
  ∃ suffix, log = snapshot ++ suffix ∧ ∀ e ∈ suffix, P e.1

theorem Since.append {snapshot log : List (Option J × W)} {P : Option J → Prop}
    (h : Since snapshot log P) {e : Option J × W} (he : P e.1) : Since snapshot (log ++ [e]) P := by
  obtain ⟨suffix, rfl, hs⟩ := h
  refine ⟨suffix ++ [e], by rw [append_assoc], fun x hx => ?_⟩
  rcases mem_append.mp hx with hx | hx
  · exact hs x hx
  · rwa [mem_singleton.mp hx]

theorem Since.imp {snapshot log : List (Option J × W)} {P Q : Option J → Prop}
    (h : Since snapshot log P) (hpq : ∀ e ∈ log, P e.1 → Q e.1) : Since snapshot log Q := by
  obtain ⟨suffix, rfl, hs⟩ := h
  exact ⟨suffix, rfl, fun e he => hpq e (mem_append_right _ he) (hs e he)⟩

structure Inv (s : State K J I W) : Prop where
  holder : ∀ j, (s.phase j).active = true → (s.guard (key j)).holder = some j
  version : ∀ k, (s.guard k).version ≤ s.counter
  /-- Who wrote is still at it, or has stamped the guard. -/
  written : ∀ k j w, (some j, w) ∈ s.log k → key j = k ∧
    (s.phase j = .running ∨ ∃ v, (s.phase j).stamp = some v ∧ v ≤ (s.guard k).version)
  loaded : ∀ i n, s.session i = .loaded n → n ≤ s.counter
  /-- Who wrote since a snapshot stamps above what its session loaded. -/
  snapshot : ∀ i n snap, s.session i = .read n snap → n ≤ s.counter ∧
    ∀ k, Since (snap k) (s.log k) fun a => ∀ j, a = some j → ∀ v, (s.phase j).stamp = some v → n < v
  fenced : ∀ j i, fence j = some i → s.phase j = .running → ∃ n snap, s.session i = .read n snap ∧
    Since (snap (key j)) (s.log (key j)) fun a => a = none ∨ a = some j

theorem initial_inv : Inv key fence (State.initial : State K J I W) := by
  refine ⟨?_, ?_, ?_, ?_, ?_, ?_⟩
  · intro j hj
    cases hj
  · exact fun _ => Nat.le_refl 0
  · intro k j w hw
    cases hw
  · intro i n h
    cases h
  · intro i n snap h
    cases h
  · intro j i _ h
    cases h

variable {key fence} {s : State K J I W}

/-- An active job excludes every other one from its key. -/
theorem Inv.exclusive (h : Inv key fence s) {j j' : J} (hkey : key j' = key j)
    (hj : (s.phase j).active = true) (hj' : (s.phase j').active = true) : j' = j := by
  have h₁ := h.holder j hj
  have h₂ := h.holder j' hj'
  rw [hkey, h₁] at h₂
  exact (Option.some.inj h₂).symm

section Sessions
variable [DecidableEq I]

theorem load_inv {s : State K J I W} (h : Inv key fence s) {i : I} (hi : s.session i = .fresh) :
    Inv key fence (s.setSession i (.loaded s.counter)) := by
  have hne : ∀ i' n snap, (s.setSession i (.loaded s.counter)).session i' = .read n snap →
      s.session i' = .read n snap := by
    intro i' n snap hs
    by_cases he : i' = i
    · subst he
      simp [State.setSession] at hs
    · simpa [State.setSession, he] using hs
  refine ⟨h.holder, h.version, h.written, ?_, ?_, ?_⟩
  · intro i' n hs
    by_cases he : i' = i
    · subst he
      simp only [State.setSession, update_self, Session.loaded.injEq] at hs
      exact Nat.le_of_eq hs.symm
    · exact h.loaded i' n (by simpa [State.setSession, he] using hs)
  · exact fun i' n snap hs => h.snapshot i' n snap (hne i' n snap hs)
  · intro j i' hf hr
    obtain ⟨n, snap, hs, hsince⟩ := h.fenced j i' hf hr
    have hi' : i' ≠ i := by
      rintro rfl
      rw [hi] at hs
      cases hs
    exact ⟨n, snap, by simpa [State.setSession, hi'] using hs, hsince⟩

theorem read_inv {s : State K J I W} (h : Inv key fence s) {i : I} {n : Nat}
    (hi : s.session i = .loaded n) : Inv key fence (s.setSession i (.read n s.log)) := by
  have hn := h.loaded i n hi
  refine ⟨h.holder, h.version, h.written, ?_, ?_, ?_⟩
  · intro i' m hs
    by_cases he : i' = i
    · subst he
      simp [State.setSession] at hs
    · exact h.loaded i' m (by simpa [State.setSession, he] using hs)
  · intro i' m snap hs
    by_cases he : i' = i
    · subst he
      simp only [State.setSession, update_self, Session.read.injEq] at hs
      obtain ⟨rfl, rfl⟩ := hs
      exact ⟨hn, fun k => ⟨[], (append_nil _).symm, fun e he => by cases he⟩⟩
    · exact h.snapshot i' m snap (by simpa [State.setSession, he] using hs)
  · intro j i' hf hr
    obtain ⟨m, snap, hs, hsince⟩ := h.fenced j i' hf hr
    have hi' : i' ≠ i := by
      rintro rfl
      rw [hi] at hs
      cases hs
    exact ⟨m, snap, by simpa [State.setSession, hi'] using hs, hsince⟩

end Sessions

/-- The fence itself: a stamp at most what was loaded belongs to a write that was read. -/
theorem start_fenced (h : Inv key fence s) {j : J} {i : I}
    (hf : fence j = some i) (hl : s.phase j = .locked) (hpass : s.passes key fence j = true) :
    ∃ n snap, s.session i = .read n snap ∧
      Since (snap (key j)) (s.log (key j)) fun a => a = none ∨ a = some j := by
  unfold State.passes at hpass
  rw [hf] at hpass
  cases hi : s.session i with
  | fresh => simp [hi] at hpass
  | loaded n => simp [hi] at hpass
  | read n snap =>
    simp only [hi, decide_eq_true_eq] at hpass
    obtain ⟨-, hsince⟩ := h.snapshot i n snap hi
    refine ⟨n, snap, rfl, (hsince (key j)).imp ?_⟩
    rintro ⟨a, w⟩ hmem habove
    cases a with
    | none => exact .inl rfl
    | some j' =>
      right
      obtain ⟨hkey, hr | ⟨v, hv, hle⟩⟩ := h.written _ j' w hmem
      · exact congrArg some (h.exclusive hkey (by rw [hl]; rfl) (by rw [hr]; rfl))
      · have hlt := habove j' rfl v hv
        omega

variable [DecidableEq K]

/-- A key's log grows by a write of the job that runs there, or of nobody. -/
theorem Inv.append (h : Inv key fence s) {k : K} {e : Option J × W}
    (he : ∀ j, e.1 = some j → key j = k ∧ s.phase j = .running) : Inv key fence (s.append k e) := by
  have hlog : ∀ k', (s.append k e).log k' = if k' = k then s.log k ++ [e] else s.log k' := by
    intro k'
    by_cases hk : k' = k
    · subst hk
      simp [State.append]
    · simp [State.append, hk]
  -- Every clause about a log speaks of its old part as before.
  have hgrow : ∀ k' snap P, Since snap (s.log k') P → (k' = k → P e.1) →
      Since snap ((s.append k e).log k') P := by
    intro k' snap P hs hP
    rw [hlog]
    by_cases hk : k' = k
    · subst hk
      rw [if_pos rfl]
      exact hs.append (hP rfl)
    · rwa [if_neg hk]
  refine ⟨h.holder, h.version, ?_, h.loaded, ?_, ?_⟩
  · intro k' j w hw
    rw [hlog] at hw
    by_cases hk : k' = k
    · subst hk
      rw [if_pos rfl] at hw
      rcases mem_append.mp hw with hw | hw
      · exact h.written k' j w hw
      · obtain ⟨hkey, hrun⟩ := he j (by rw [← mem_singleton.mp hw])
        exact ⟨hkey, .inl hrun⟩
    · rw [if_neg hk] at hw
      exact h.written k' j w hw
  · intro i n snap hs
    obtain ⟨hn, hsince⟩ := h.snapshot i n snap hs
    refine ⟨hn, fun k' => hgrow k' _ _ (hsince k') fun _ j ha v hv => ?_⟩
    have hv' : (s.phase j).stamp = some v := hv
    rw [(he j ha).2] at hv'
    cases hv'
  · intro j i hf hr
    obtain ⟨n, snap, hs, hsince⟩ := h.fenced j i hf hr
    refine ⟨n, snap, hs, hgrow _ _ _ hsince fun hk => ?_⟩
    cases ha : e.1 with
    | none => exact .inl rfl
    | some j' =>
      obtain ⟨hkey, hrun⟩ := he j' ha
      have hr' : s.phase j = .running := hr
      have hsame : j' = j := h.exclusive (hkey.trans hk.symm) (by rw [hr']; rfl) (by rw [hrun]; rfl)
      exact .inr (by rw [hsame])

variable [DecidableEq J]

/-- A job moves to another phase, alone on its key, and leaves its guard as `g`. -/
theorem Inv.move (h : Inv key fence s) {j : J} {p : Phase} {g : Guard J} {c : Nat}
    (hc : s.counter ≤ c) (hg : g.version ≤ c) (hmono : (s.guard (key j)).version ≤ g.version)
    (hold : p.active = true → g.holder = some j)
    (halone : ∀ j', j' ≠ j → key j' = key j → (s.phase j').active = false)
    (hwrote : ∀ w, (some j, w) ∈ s.log (key j) → p = .running ∨ ∃ v, p.stamp = some v ∧ v ≤ g.version)
    (hstamp : ∀ v, p.stamp = some v → (s.phase j).stamp = some v ∨ s.counter < v)
    (hrun : p = .running → ∀ i, fence j = some i → ∃ n snap, s.session i = .read n snap ∧
      Since (snap (key j)) (s.log (key j)) fun a => a = none ∨ a = some j) :
    Inv key fence {(s.setPhase j p).setGuard (key j) g with counter := c} := by
  refine ⟨?_, ?_, ?_, ?_, ?_, ?_⟩
  · intro j' hj'
    by_cases he : j' = j
    · subst he
      simp only [State.setGuard, State.setPhase, update_self] at hj' ⊢
      exact hold hj'
    · simp only [State.setGuard, State.setPhase, update_of_ne he] at hj' ⊢
      have hk : key j' ≠ key j := fun hk => by
        rw [halone j' he hk] at hj'
        cases hj'
      rw [update_of_ne hk]
      exact h.holder j' hj'
  · intro k
    by_cases hk : k = key j
    · subst hk
      simpa [State.setGuard] using hg
    · simpa [State.setGuard, State.setPhase, hk] using Nat.le_trans (h.version k) hc
  · intro k j' w hw
    obtain ⟨hkey, hor⟩ := h.written k j' w hw
    refine ⟨hkey, ?_⟩
    subst hkey
    by_cases he : j' = j
    · subst he
      simpa [State.setGuard, State.setPhase] using hwrote w hw
    · simp only [State.setGuard, State.setPhase, update_of_ne he]
      refine hor.imp id fun ⟨v, hv, hle⟩ => ⟨v, hv, ?_⟩
      by_cases hk : key j' = key j
      · rw [hk, update_self]
        exact Nat.le_trans (hk ▸ hle) hmono
      · rwa [update_of_ne hk]
  · exact fun i n hs => Nat.le_trans (h.loaded i n hs) hc
  · intro i n snap hs
    obtain ⟨hn, hsince⟩ := h.snapshot i n snap hs
    refine ⟨Nat.le_trans hn hc, fun k => (hsince k).imp ?_⟩
    intro e _ habove j' ha v hv
    by_cases he : j' = j
    · subst he
      simp only [State.setGuard, State.setPhase, update_self] at hv
      rcases hstamp v hv with hv | hlt
      · exact habove j' ha v hv
      · exact Nat.lt_of_le_of_lt hn hlt
    · simp only [State.setGuard, State.setPhase, update_of_ne he] at hv
      exact habove j' ha v hv
  · intro j' i hf hr
    by_cases he : j' = j
    · subst he
      simp only [State.setGuard, State.setPhase, update_self] at hr
      exact hrun hr i hf
    · simp only [State.setGuard, State.setPhase, update_of_ne he] at hr
      exact h.fenced j' i hf hr

variable [DecidableEq I]

theorem step_inv {s s' : State K J I W} (h : Inv key fence s) {a : Action K J I W}
    (hs : step key fence s a = some s') : Inv key fence s' := by
  -- Whoever holds the guard is the only active job of its key.
  have halone : ∀ j, (s.phase j).active = true →
      ∀ j', j' ≠ j → key j' = key j → (s.phase j').active = false := by
    intro j hj j' hne hkey
    by_contra hact
    exact hne (h.exclusive hkey hj (by simpa using hact))
  have hquiet : ∀ j w, s.phase j = .locked → (some j, w) ∉ s.log (key j) := by
    intro j w hl hw
    rcases (h.written _ j w hw).2 with hr | ⟨v, hv, -⟩
    · rw [hl] at hr
      cases hr
    · rw [hl] at hv
      cases hv
  cases a with
  | load i =>
    simp only [step] at hs
    split at hs
    · rename_i hi
      cases hs
      exact load_inv h hi
    · cases hs
  | read i =>
    simp only [step] at hs
    split at hs
    · rename_i n hi
      cases hs
      exact read_inv h hi
    · cases hs
  | acquire j =>
    simp only [step] at hs
    split at hs
    · rename_i hw hfree
      cases hs
      have hnone : ∀ j', j' ≠ j → key j' = key j → (s.phase j').active = false := by
        intro j' _ hkey
        by_contra hact
        have hh := h.holder j' (by simpa using hact)
        rw [hkey, hfree] at hh
        cases hh
      refine h.move (Nat.le_refl _) (h.version _) (Nat.le_refl _) (fun _ => rfl) hnone ?_ ?_ ?_
      · intro w hmem
        rcases (h.written _ j w hmem).2 with hr | ⟨v, hv, -⟩
        · rw [hw] at hr
          cases hr
        · rw [hw] at hv
          cases hv
      · intro v hv
        cases hv
      · intro hr
        cases hr
    · cases hs
  | quit j =>
    simp only [step] at hs
    split at hs
    · rename_i hl
      cases hs
      refine h.move (Nat.le_refl _) (h.version _) (Nat.le_refl _) (fun hp => by cases hp)
        (halone j (by rw [hl]; rfl)) (fun w hw => absurd hw (hquiet j w hl)) ?_ ?_
      · intro v hv
        cases hv
      · intro hr
        cases hr
    · cases hs
  | start j =>
    simp only [step] at hs
    split at hs
    · rename_i hl
      split at hs
      · rename_i hpass
        cases hs
        have hmove := h.move (j := j) (p := .running) (g := s.guard (key j)) (Nat.le_refl _)
          (h.version _) (Nat.le_refl _) (fun _ => h.holder j (by rw [hl]; rfl))
          (halone j (by rw [hl]; rfl)) (fun _ _ => .inl rfl) (fun v hv => by cases hv) ?_
        · simpa [State.setGuard, State.setPhase] using hmove
        · exact fun _ i hf => start_fenced h hf hl hpass
      · cases hs
    · cases hs
  | write j w =>
    simp only [step] at hs
    split at hs
    · rename_i hr
      cases hs
      refine h.append fun j' hj' => ?_
      obtain rfl := Option.some.inj hj'
      exact ⟨rfl, hr⟩
    · cases hs
  | stamp j =>
    simp only [step] at hs
    split at hs
    · rename_i hr
      cases hs
      have hact : (s.phase j).active = true := by rw [hr]; rfl
      refine h.move (Nat.le_succ _) (Nat.le_refl _) (Nat.le_succ_of_le (h.version _))
        (fun _ => h.holder j hact) (halone j hact) (fun _ _ => .inr ⟨_, rfl, Nat.le_refl _⟩) ?_ ?_
      · intro v hv
        simp only [Phase.stamp, Option.some.injEq] at hv
        exact .inr (by omega)
      · intro hp
        cases hp
    · cases hs
  | release j =>
    simp only [step] at hs
    split at hs
    · rename_i v hv
      cases hs
      have hact : (s.phase j).active = true := by rw [hv]; rfl
      refine h.move (Nat.le_refl _) (h.version _) (Nat.le_refl _) (fun hp => by cases hp)
        (halone j hact) ?_ ?_ ?_
      · intro w hw
        rcases (h.written _ j w hw).2 with hr | ⟨u, hu, hle⟩
        · rw [hv] at hr
          cases hr
        · rw [hv] at hu
          exact .inr ⟨u, hu, hle⟩
      · intro u hu
        rw [hv]
        exact .inl hu
      · intro hp
        cases hp
    · cases hs
  | other k w =>
    simp only [step, Option.some.injEq] at hs
    subst hs
    exact h.append fun j hj => by cases hj

theorem reachable_inv (h : Reachable key fence s) : Inv key fence s := by
  induction h with
  | initial => exact initial_inv key fence
  | step a _ hs ih => exact step_inv ih hs

/-- **A fenced job that goes on has seen everything.** What was written to its key
since its snapshot was written by itself or by nobody who takes the guard. -/
theorem fenced_sees (h : Reachable key fence s) {j : J} {i : I}
    (hf : fence j = some i) (hr : s.phase j = .running) :
    ∃ n snap, s.session i = .read n snap ∧
      Since (snap (key j)) (s.log (key j)) fun a => a = none ∨ a = some j :=
  (reachable_inv h).fenced j i hf hr

end Invariant

end Fence
