import Mathlib.Logic.Function.Basic
import ControlTower.Data.Dialogue

/-! Files that are replaced, and what a crash leaves of them.

`WriteFile` puts the new contents into a temporary file, moves the current file to the
backup's name, and moves the temporary file into its place; `ReadFile` falls back on the
backup. A call may be cut off before any of its operations on the directory, and each of
them may fail. Where the file itself is in place when a call begins, what is read is
always the value before the call or the new one. A call that was cut off between the two
moves leaves only the backup, and the next call begins by removing it. -/
namespace ControlTower.Files
open Data List
open Dialogue (ask ret Leads)

/-! ### The directory -/

inductive Name
  | path
  | backup
  | temp (n : Nat)
  deriving DecidableEq

variable {V : Type}

abbrev Dir (V : Type) := Name → Option V

def readFile (d : Dir V) : Option V := (d .path).or (d .backup)

inductive Stat
  | found
  | missing
  | failed
  deriving DecidableEq

inductive Request (V : Type)
  | mkdirAll
  /-- `CreateTemp` with the writes, the sync and the close that follow it. -/
  | createTemp (data : V)
  | remove (name : Name)
  | stat (name : Name)
  | rename (source target : Name)

abbrev Answer : Request V → Type
  | .mkdirAll | .remove _ | .rename .. => Bool
  | .createTemp _ => Option Nat
  | .stat _ => Stat

/-- An operation on the directory, with the answer that it would give if it can: a
temporary file has a new name, and what is missing is neither removed nor renamed. -/
def serve (d : Dir V) : (q : Request V) → Answer q → Answer q × Dir V
  | .mkdirAll, ok => (ok, d)
  | .createTemp _, none => (none, d)
  | .createTemp data, some n =>
    match d (.temp n) with
    | none => (some n, Function.update d (.temp n) (some data))
    | some _ => (none, d)
  | .remove _, false => (false, d)
  | .remove name, true => ((d name).isSome, Function.update d name none)
  | .stat _, .failed => (.failed, d)
  | .stat name, _ => (if (d name).isSome then .found else .missing, d)
  | .rename .., false => (false, d)
  | .rename source target, true =>
    match d source with
    | none => (false, d)
    | some v => (true, Function.update (Function.update d source none) target (some v))

/-! ### The calls -/

/-- A call returns whether it succeeded. -/
abbrev Call (V : Type) := Dialogue (Request V) Answer Bool

/-- The end of a call that fails. -/
def giveUp (temp : Nat) : Call V := ask (.remove (.temp temp)) fun _ => ret false

/-- The temporary file is moved into its place. -/
def place (temp : Nat) : Call V :=
  ask (.rename (.temp temp) .path) fun
    | true => ask (.remove .backup) fun _ => ret true
    | false => ask (.rename .backup .path) fun _ => giveUp temp

/-- What is left of a call when the old backup is out of the way. -/
def replace (temp : Nat) : Call V :=
  ask (.stat .path) fun
    | .missing => place temp
    | .failed => giveUp temp
    | .found => ask (.rename .path .backup) fun
      | true => place temp
      | false => giveUp temp

def writeFile (data : V) : Call V :=
  ask .mkdirAll fun
    | false => ret false
    | true => ask (.createTemp data) fun
      | none => ret false
      | some temp => ask (.remove .backup) fun _ => replace temp

/-! ### Runs -/

/-- The directory, and what it was before each operation. -/
structure Recorded (V : Type) where
  dir : Dir V
  past : List (Dir V)

def Recorded.dirs (s : Recorded V) : List (Dir V) := s.past ++ [s.dir]

def record (s : Recorded V) (q : Request V) (a : Answer q) : Answer q × Recorded V :=
  let served := serve s.dir q a
  (served.1, ⟨served.2, s.dirs⟩)

abbrev Turn (V : Type) := Dialogue.Turn (Request V) Answer Empty

/-- A call, cut off where its turns end. -/
structure Write (V : Type) where
  data : V
  turns : List (Turn V)

def still (s : Recorded V) (_ : Empty) : Recorded V := s

def Write.outcome (c : Write V) (d : Dir V) : Option Bool × Recorded V :=
  (writeFile c.data).outcome still record ⟨d, []⟩ c.turns

/-- The directory at a moment, the value of the last call that succeeded, and those of the
calls that were begun after it and have not returned. -/
structure Moment (V : Type) where
  dir : Dir V
  acknowledged : V
  interrupted : List V

structure World (V : Type) where
  now : Moment V
  /-- Every moment so far: one before each operation and one after each call. -/
  moments : List (Moment V)
  /-- Every call so far, with the directory before it. -/
  begun : List (Write V × Dir V)

def World.step (w : World V) (c : Write V) : World V :=
  let result := c.outcome w.now.dir
  let pending := w.now.interrupted ++ [c.data]
  let after := result.2.dir
  let now : Moment V := match result.1 with
    | some true => ⟨after, c.data, []⟩
    | some false => ⟨after, w.now.acknowledged, w.now.interrupted⟩
    | none => ⟨after, w.now.acknowledged, pending⟩
  { now
    moments := w.moments ++ result.2.past.map (⟨·, w.now.acknowledged, pending⟩) ++ [now]
    begun := w.begun ++ [(c, w.now.dir)] }

def World.run (w : World V) (calls : List (Write V)) : World V := calls.foldl World.step w

def World.start (d : Dir V) (v : V) : World V := ⟨⟨d, v, []⟩, [⟨d, v, []⟩], []⟩

/-- What is read is the last value that was acknowledged or one of an interrupted call. -/
def Moment.Readable (m : Moment V) : Prop :=
  ∃ v, readFile m.dir = some v ∧ (v = m.acknowledged ∨ v ∈ m.interrupted)

/-- The call comes so far as to remove the backup: it is not cut off before, and nothing
fails up to there. -/
def Write.clears (c : Write V) (d : Dir V) : Bool :=
  c.turns[0]?.any (·.answer .mkdirAll) &&
    c.turns[1]?.any (fun turn => (turn.answer (.createTemp c.data)).any fun n => (d (.temp n)).isNone) &&
    c.turns[2]?.any (·.answer (.remove .backup))

/-- A call that finds the file missing does not come so far. -/
def Write.Spares (c : Write V) (d : Dir V) : Prop := c.clears d = true → (d .path).isSome = true

instance (c : Write V) (d : Dir V) : Decidable (c.Spares d) :=
  inferInstanceAs (Decidable (c.clears d = true → (d .path).isSome = true))

/-! ### The stages of a call -/

inductive Stage
  | cleared (temp : Nat)
  | present (temp : Nat)
  | moved (temp : Nat)
  | unplaced
  | failing
  | placed

def allowed : Stage → Request V → Prop
  | .cleared _, .stat .path => True
  | .present _, .rename .path .backup => True
  | .moved n, .rename (.temp m) .path => m = n
  | .unplaced, .rename .backup .path => True
  | .failing, .remove (.temp _) => True
  | .placed, .remove .backup => True
  | _, _ => False

def after : Stage → (q : Request V) → Answer q → Stage
  | .cleared n, .stat _, .found => .present n
  | .cleared n, .stat _, .missing => .moved n
  | .cleared _, .stat _, .failed => .failing
  | .present n, .rename .., true => .moved n
  | .present _, .rename .., false => .failing
  | .moved _, .rename .., true => .placed
  | .moved _, .rename .., false => .unplaced
  | .unplaced, .rename .., _ => .failing
  | g, _, _ => g

/-- A call succeeds where the new file is in its place. -/
def done (g : Stage) (ok : Bool) : Prop := ok = true ↔ g = .placed

theorem place_leads (temp : Nat) : (place temp : Call V).Leads allowed after done (.moved temp) := by
  refine ⟨rfl, fun ok => ?_⟩
  cases ok with
  | true => exact ⟨True.intro, fun _ => iff_of_true rfl rfl⟩
  | false => exact ⟨True.intro, fun _ => ⟨True.intro, fun _ => by simp [done, after, Leads]⟩⟩

theorem replace_leads (temp : Nat) : (replace temp : Call V).Leads allowed after done (.cleared temp) := by
  have hgive : (giveUp temp : Call V).Leads allowed after done .failing :=
    ⟨True.intro, fun _ => by simp [done, after, Leads]⟩
  refine ⟨True.intro, fun stat => ?_⟩
  cases stat with
  | missing => exact place_leads temp
  | failed => exact hgive
  | found =>
    refine ⟨True.intro, fun ok => ?_⟩
    cases ok with
    | true => exact place_leads temp
    | false => exact hgive

/-! ### What is read at the stages -/

section Reads
variable (before : Moment V) (data : V)

/-- What is read was there before the call. -/
def Old (d : Dir V) : Prop := Moment.Readable ⟨d, before.acknowledged, before.interrupted⟩

def At : Stage → Dir V → Prop
  | .failing, d => Old before d
  | .cleared n, d | .present n, d => Old before d ∧ d (.temp n) = some data
  | .moved n, d => Old before d ∧ d .path = none ∧ d (.temp n) = some data
  | .unplaced, d => Old before d ∧ d .path = none
  | .placed, d => d .path = some data

variable {before data} {d : Dir V} {g : Stage}

theorem Old.congr {d' : Dir V} (h : Old before d) (hread : readFile d' = readFile d) : Old before d' := by
  obtain ⟨v, hv, hor⟩ := h
  exact ⟨v, hread.trans hv, hor⟩

/-- A value read before the call may still be read during it. -/
theorem Old.readable (h : Old before d) :
    Moment.Readable ⟨d, before.acknowledged, before.interrupted ++ [data]⟩ := by
  obtain ⟨v, hv, hor⟩ := h
  exact ⟨v, hv, hor.imp_right (mem_append_left _)⟩

theorem At.old (h : At before data g d) (hg : g ≠ .placed) : Old before d := by
  cases g with
  | failing => exact h
  | cleared n => exact h.1
  | present n => exact h.1
  | moved n => exact h.1
  | unplaced => exact h.1
  | placed => exact absurd rfl hg

/-- During the call, what is read is as before or the new value. -/
theorem At.readable (h : At before data g d) :
    Moment.Readable ⟨d, before.acknowledged, before.interrupted ++ [data]⟩ := by
  by_cases hg : g = .placed
  · subst hg
    exact ⟨data, by simp [readFile, show d .path = some data from h], .inr (by simp)⟩
  · exact (h.old hg).readable

theorem readFile_temp (d : Dir V) (n : Nat) (v : Option V) :
    readFile (Function.update d (.temp n) v) = readFile d := by
  simp [readFile]

theorem At.remove (h : At before data g d) {name : Name} (hg : allowed (V := V) g (.remove name))
    (ok : Bool) : At before data (after g (.remove name) (serve d (.remove name) ok).1)
      (serve d (.remove name) ok).2 := by
  cases g with
  | failing =>
    cases name with
    | temp n =>
      cases ok with
      | false => exact h
      | true => exact Old.congr h (readFile_temp d n none)
    | _ => exact hg.elim
  | placed =>
    cases name with
    | backup =>
      have hpath : d .path = some data := h
      cases ok with
      | false => exact hpath
      | true => simpa [serve, At, after] using hpath
    | _ => exact hg.elim
  | _ => exact hg.elim

theorem At.rename (h : At before data g d) {source target : Name}
    (hg : allowed (V := V) g (.rename source target)) (ok : Bool) :
    At before data (after g (.rename source target) (serve d (.rename source target) ok).1)
      (serve d (.rename source target) ok).2 := by
  cases g with
  | present n =>
    match source, target, hg with
    | .path, .backup, _ =>
      cases ok with
      | false => exact h.1
      | true =>
        cases hpath : d .path with
        | none =>
          simp only [serve, hpath, after]
          exact h.1
        | some v =>
          have hread : readFile (serve d (.rename .path .backup) true).2 = readFile d := by
            simp [serve, hpath, readFile]
          simp only [serve, hpath, after] at hread ⊢
          exact ⟨h.1.congr hread, by simp, by simpa using h.2⟩
  | moved n =>
    match source, target, hg with
    | .temp m, .path, hm =>
      obtain rfl : m = n := hm
      obtain ⟨hold, hpath, htemp⟩ := h
      cases ok with
      | false => exact ⟨hold, hpath⟩
      | true => simp [serve, htemp, after, At]
  | unplaced =>
    match source, target, hg with
    | .backup, .path, _ =>
      obtain ⟨hold, hpath⟩ := h
      cases ok with
      | false => exact hold
      | true =>
        cases hbackup : d .backup with
        | none =>
          simp only [serve, hbackup, after]
          exact hold
        | some v =>
          have hread : readFile (serve d (.rename .backup .path) true).2 = readFile d := by
            simp [serve, hbackup, hpath, readFile]
          simp only [serve, hbackup, after] at hread ⊢
          exact hold.congr hread
  | _ => exact hg.elim

/-- Each operation leads from one stage to the next. -/
theorem At.serve (h : At before data g d) {q : Request V} (hg : allowed g q) (a : Answer q) :
    At before data (after g q (Files.serve d q a).1) (Files.serve d q a).2 := by
  cases q with
  | remove name => exact h.remove hg a
  | rename source target => exact h.rename hg a
  | mkdirAll => cases g <;> exact hg.elim
  | createTemp data' => cases g <;> exact hg.elim
  | stat name =>
    cases g with
    | cleared n =>
      match name, hg with
      | .path, _ =>
        obtain ⟨hold, htemp⟩ := h
        cases a with
        | failed => exact hold
        | found =>
          cases hpath : d .path with
          | none => simpa [Files.serve, hpath, after] using ⟨hold, hpath, htemp⟩
          | some v => simpa [Files.serve, hpath, after] using ⟨hold, htemp⟩
        | missing =>
          cases hpath : d .path with
          | none => simpa [Files.serve, hpath, after] using ⟨hold, hpath, htemp⟩
          | some v => simpa [Files.serve, hpath, after] using ⟨hold, htemp⟩
    | _ => exact hg.elim

end Reads

/-! ### A call -/

variable {before : Moment V} {data : V} {c : Write V} {d : Dir V}

/-- Every moment of the call so far can be read. -/
structure Tied (before : Moment V) (data : V) (g : Stage) (s : Recorded V) : Prop where
  past : ∀ d ∈ s.past, Moment.Readable ⟨d, before.acknowledged, before.interrupted ++ [data]⟩
  stage : At before data g s.dir

theorem Tied.record {g : Stage} {s : Recorded V} (h : Tied before data g s) {q : Request V}
    (hg : allowed g q) (a : Answer q) :
    Tied before data (after g q (record s q a).1) (Files.record s q a).2 := by
  refine ⟨fun d hd => ?_, h.stage.serve hg a⟩
  rcases mem_append.mp hd with hd | hd
  · exact h.past d hd
  · rw [mem_singleton.mp hd]
    exact h.stage.readable

@[simp] theorem foldl_still (events : List Empty) (s : Recorded V) : events.foldl still s = s := by
  cases events with
  | nil => rfl
  | cons e _ => exact e.elim

/-- The directory in which a call goes on is one of its moments. -/
theorem dirs_outcome (call : Call V) (s : Recorded V) (turns : List (Turn V)) :
    s.dirs <+: (call.outcome still record s turns).2.dirs := by
  induction call generalizing s turns with
  | ret ok => exact prefix_rfl
  | ask q next ih =>
    cases turns with
    | nil => exact prefix_rfl
    | cons turn turns => 
      have hnext := ih (record s q (turn.answer q)).1 (record s q (turn.answer q)).2 turns
      simp only [Dialogue.outcome, foldl_still]
      exact (prefix_append s.dirs _).trans hnext

attribute [local simp] Write.clears Write.outcome writeFile Dialogue.outcome record serve Recorded.dirs readFile_temp in
/-- A call ends without having touched the file or the backup, or comes to replace it. -/
theorem Write.outcome_cases (c : Write V) (d : Dir V) :
    (c.clears d = false ∧ (c.outcome d).1 ≠ some true ∧
      ∀ d' ∈ (c.outcome d).2.dirs, readFile d' = readFile d) ∨
    ∃ n turns, let written := Function.update d (.temp n) (some c.data)
      c.outcome d = (replace n).outcome still record
        ⟨(serve written (.remove .backup) (c.clears d)).2, [d, d, written]⟩ turns := by
  obtain ⟨data, turns⟩ := c
  -- The call is followed to the first operation that fails or is not reached.
  rcases turns with _ | ⟨mkdir, turns⟩
  · exact .inl (by simp)
  cases hmkdir : mkdir.answer .mkdirAll with
  | false => exact .inl (by simp [hmkdir])
  | true =>
  rcases turns with _ | ⟨create, turns⟩
  · exact .inl (by simp [hmkdir])
  cases hcreate : create.answer (.createTemp data) with
  | none => exact .inl (by simp [hmkdir, hcreate])
  | some n =>
  cases hfree : d (.temp n) with
  | some v => exact .inl (by simp [hmkdir, hcreate, hfree])
  | none =>
  rcases turns with _ | ⟨removal, turns⟩
  · exact .inl (by simp [hmkdir, hcreate, hfree])
  exact .inr ⟨n, turns, by simp [hmkdir, hcreate, hfree]⟩

/-- A call that spares the backup can be read throughout. -/
theorem Write.Spares.tied (h : c.Spares before.dir) (hold : Old before before.dir) :
    ∃ g, Tied before c.data g (c.outcome before.dir).2 ∧
      ∀ ok, (c.outcome before.dir).1 = some ok → done g ok := by
  rcases c.outcome_cases before.dir with ⟨-, hresult, hdirs⟩ | ⟨n, turns, houtcome⟩
  · refine ⟨.failing, ⟨fun d hd => (hold.congr (hdirs d (mem_append_left _ hd))).readable,
      hold.congr (hdirs _ (mem_append_right _ (mem_singleton_self _)))⟩, fun ok hok => ?_⟩
    cases ok with
    | true => exact absurd hok hresult
    | false => simp [done]
  · rw [houtcome]
    have hwritten := readFile_temp before.dir n (some c.data)
    refine (replace_leads n).outcome (fun _ _ e => e.elim) (fun _ _ q a h hg => h.record hg a) turns ⟨?_, ?_⟩
    · have hcall : Moment.Readable ⟨before.dir, before.acknowledged, before.interrupted ++ [c.data]⟩ := hold.readable
      simpa [hcall] using (hold.congr hwritten).readable
    · cases hclears : c.clears before.dir with
      | false => exact ⟨hold.congr hwritten, by simp [serve]⟩
      | true =>
        obtain ⟨v, hv⟩ := Option.isSome_iff_exists.mp (h hclears)
        exact ⟨hold.congr (by simp [serve, readFile, hv]), by simp [serve]⟩

/-- After one that does not, there is a moment at which nothing can be read. -/
theorem Write.lost (h : ¬c.Spares d) : ∃ d' ∈ (c.outcome d).2.dirs, readFile d' = none := by
  obtain ⟨hclears, hpath⟩ := Classical.not_imp.mp h
  rcases c.outcome_cases d with ⟨hfalse, -⟩ | ⟨n, turns, houtcome⟩
  · simp [hfalse] at hclears
  · rw [houtcome, hclears]
    refine ⟨_, (dirs_outcome (replace n) _ turns).subset (mem_append_right _ (mem_singleton_self _)), ?_⟩
    simpa [serve, readFile] using hpath

/-! ### Any number of calls -/

theorem World.step_dir (w : World V) (c : Write V) : (w.step c).now.dir = (c.outcome w.now.dir).2.dir := by
  simp only [World.step]
  split <;> rfl

/-- Where every moment could be read and the backup is spared, the call can be read
throughout, and at its end what it returned is true. -/
theorem World.step_readable {w : World V} (hnow : w.now.Readable) (h : c.Spares w.now.dir) :
    (∀ d ∈ (c.outcome w.now.dir).2.past,
      Moment.Readable ⟨d, w.now.acknowledged, w.now.interrupted ++ [c.data]⟩) ∧
      (w.step c).now.Readable := by
  obtain ⟨g, ⟨hpast, hstage⟩, hdone⟩ := h.tied hnow
  refine ⟨hpast, ?_⟩
  simp only [World.step]
  cases hresult : (c.outcome w.now.dir).1 with
  | none => exact hstage.readable
  | some ok =>
    have hdone := hdone ok hresult
    cases ok with
    | true =>
      obtain rfl := hdone.mp rfl
      exact ⟨c.data, by simp [readFile, show (c.outcome w.now.dir).2.dir .path = some c.data from hstage], .inl rfl⟩
    | false => exact hstage.old fun hg => by simpa using hdone.mpr hg

/-- What one call preserves. -/
structure Account (w : World V) : Prop where
  now : w.now ∈ w.moments
  readable : (∀ m ∈ w.moments, m.Readable) ↔ ∀ call ∈ w.begun, call.1.Spares call.2

theorem Account.step {w : World V} (h : Account w) (c : Write V) : Account (w.step c) := by
  have hnow : (w.step c).now ∈ (w.step c).moments := mem_append_right _ (mem_singleton_self _)
  refine ⟨hnow, ⟨fun hmoments => ?_, fun hbegun => ?_⟩⟩
  · have hold : ∀ m ∈ w.moments, m.Readable := fun m hm =>
      hmoments m (mem_append_left _ (mem_append_left _ hm))
    have hnew : c.Spares w.now.dir := by
      by_contra hlost
      obtain ⟨d, hd, hnone⟩ := Write.lost hlost
      rcases mem_append.mp hd with hd | hd
      · obtain ⟨v, hv, -⟩ := hmoments _ (mem_append_left _ (mem_append_right _ (mem_map_of_mem hd)))
        simp [hnone] at hv
      · obtain ⟨v, hv, -⟩ := hmoments _ hnow
        simp [World.step_dir, ← mem_singleton.mp hd, hnone] at hv
    intro call hcall
    rcases mem_append.mp hcall with hcall | hcall
    · exact h.readable.mp hold call hcall
    · rw [mem_singleton.mp hcall]
      exact hnew
  · have hold := h.readable.mpr fun call hcall => hbegun call (mem_append_left _ hcall)
    obtain ⟨hpast, hend⟩ := World.step_readable (hold _ h.now)
      (hbegun (c, w.now.dir) (mem_append_right _ (mem_singleton_self _)))
    intro m hm
    rcases mem_append.mp hm with hm | hm
    · rcases mem_append.mp hm with hm | hm
      · exact hold m hm
      · obtain ⟨d, hd, rfl⟩ := mem_map.mp hm
        exact hpast d hd
    · rw [mem_singleton.mp hm]
      exact hend

theorem Account.run {w : World V} (h : Account w) (calls : List (Write V)) : Account (w.run calls) := by
  induction calls generalizing w with
  | nil => exact h
  | cons c calls ih => exact ih (h.step c)

/-- **What is read is current at every moment exactly if no call that finds the file missing
comes so far as to remove the backup.** -/
theorem readable_iff_spared (d : Dir V) (v : V) (hread : readFile d = some v) (calls : List (Write V)) :
    (∀ m ∈ ((World.start d v).run calls).moments, m.Readable) ↔
      ∀ call ∈ ((World.start d v).run calls).begun, call.1.Spares call.2 := by
  have hstart : Account (World.start d v) := by
    refine ⟨mem_singleton_self _, iff_of_true (fun m hm => ?_) (by simp [World.start])⟩
    rw [mem_singleton.mp hm]
    exact ⟨v, hread, .inl rfl⟩
  exact (hstart.run calls).readable

/-- Every operation succeeds; the temporary file has the number `n`. -/
def succeeding (n : Nat) : Turn V :=
  ⟨[], fun
    | .mkdirAll | .remove _ | .rename .. => true
    | .createTemp _ => some n
    | .stat _ => .found⟩

/-- A file with the value 0, and no backup. -/
def zero : Dir Nat := Function.update (fun _ => none) .path (some 0)

/-- The second call stops between its two renames, and the third before it removes the
backup, which has the value of the first. -/
def halted : List (Write Nat) :=
  [⟨1, List.replicate 7 (succeeding 1)⟩, ⟨2, List.replicate 5 (succeeding 2)⟩, ⟨3, List.replicate 2 (succeeding 3)⟩]

theorem readable_iff_spared_halted :
    readFile ((World.start zero 0).run halted).now.dir = some 1 ∧
      ∀ m ∈ ((World.start zero 0).run halted).moments, m.Readable := by
  exact ⟨by decide, (readable_iff_spared zero 0 (by decide) halted).mpr (by decide)⟩

/-- The first call stops between its two renames, the second one after it has removed the
backup: nothing is left. -/
theorem interrupted_twice :
    readFile zero = some 0 ∧
      readFile ((World.start zero 0).run
        [⟨1, List.replicate 5 (succeeding 1)⟩, ⟨2, List.replicate 3 (succeeding 2)⟩]).now.dir = none := by
  decide

end ControlTower.Files
