import Mathlib.Data.List.Induction
import Mathlib.Algebra.Ring.Nat

/-! Big-endian integers and length-prefixed frames, as `encoding/binary` and
`bytes` write and read them.

A buffer is the list of bytes written so far and a reader the list of bytes that
are left. `readFrame_iff` says what a successful read of a frame means in both
directions: the reader held exactly that frame, then what is left. -/
namespace ControlTower.Go
open List

/-- Go strings and byte slices. -/
abbrev Bytes := List UInt8

/-- A text of ASCII characters. -/
def ascii (s : String) : Bytes := s.toList.map fun c => UInt8.ofNat c.toNat

/-- `n` in `k` bytes, the most significant first; what does not fit is cut off. -/
def putUint : Nat → Nat → Bytes
  | 0, _ => []
  | k + 1, n => putUint k (n / 256) ++ [UInt8.ofNat n]

/-- The number that bytes stand for. -/
def getUint (bs : Bytes) : Nat := bs.foldl (fun n b => 256 * n + b.toNat) 0

@[simp] theorem length_putUint (k n : Nat) : (putUint k n).length = k := by
  induction k generalizing n with
  | zero => rfl
  | succ k ih => simp [putUint, ih]

theorem getUint_concat (bs : Bytes) (b : UInt8) : getUint (bs ++ [b]) = 256 * getUint bs + b.toNat := by
  simp [getUint, foldl_append]

theorem getUint_putUint (k n : Nat) (h : n < 256 ^ k) : getUint (putUint k n) = n := by
  induction k generalizing n with
  | zero =>
    have hn : n = 0 := by omega
    rw [hn]
    rfl
  | succ k ih =>
    have hd : n / 256 < 256 ^ k := by
      rw [Nat.div_lt_iff_lt_mul (by decide), ← Nat.pow_succ]
      exact h
    rw [putUint, getUint_concat, ih _ hd, UInt8.toNat_ofNat']
    omega

theorem putUint_getUint (bs : Bytes) : putUint bs.length (getUint bs) = bs := by
  induction bs using List.reverseRecOn with
  | nil => rfl
  | append_singleton bs b ih =>
    have hb : b.toNat < 256 := b.toNat_lt
    have hdiv : (256 * getUint bs + b.toNat) / 256 = getUint bs := by omega
    have hlow : UInt8.ofNat (256 * getUint bs + b.toNat) = b := by
      apply UInt8.toNat_inj.mp
      rw [UInt8.toNat_ofNat']
      omega
    rw [length_append, length_singleton, putUint, getUint_concat, hdiv, hlow, ih]

/-! ### Frames -/

/-- A value behind its length in eight bytes. -/
def frame (v : Bytes) : Bytes := putUint 8 v.length ++ v

@[simp] theorem length_frame (v : Bytes) : (frame v).length = 8 + v.length := by
  simp [frame]

/-- Reads a frame of at most `limit` bytes: the value and what is left. -/
def readFrame (limit : Nat) (r : Bytes) : Option (Bytes × Bytes) :=
  if r.length < 8 then none else
  if r.length - 8 < getUint (r.take 8) || limit < getUint (r.take 8) then none else
  some ((r.drop 8).take (getUint (r.take 8)), (r.drop 8).drop (getUint (r.take 8)))

/-- A read succeeds exactly on a frame that is not too long. -/
theorem readFrame_iff {limit : Nat} (hlimit : limit < 256 ^ 8) {r v rest : Bytes} :
    readFrame limit r = some (v, rest) ↔ r = frame v ++ rest ∧ v.length ≤ limit := by
  unfold readFrame
  constructor
  · intro h
    split at h
    · cases h
    rename_i hlen
    split at h
    · cases h
    rename_i hfit
    simp only [Bool.or_eq_true, decide_eq_true_eq, not_or, Nat.not_lt] at hlen hfit
    simp only [Option.some.injEq, Prod.mk.injEq] at h
    obtain ⟨rfl, rfl⟩ := h
    have hv : ((r.drop 8).take (getUint (r.take 8))).length = getUint (r.take 8) := by
      rw [length_take, length_drop]
      omega
    have hhead : putUint 8 (getUint (r.take 8)) = r.take 8 := by
      have := putUint_getUint (r.take 8)
      rwa [length_take, Nat.min_eq_left hlen] at this
    refine ⟨?_, by rw [hv]; exact hfit.2⟩
    rw [frame, hv, hhead, append_assoc, take_append_drop, take_append_drop]
  · rintro ⟨rfl, hv⟩
    have htake : (frame v ++ rest).take 8 = putUint 8 v.length := by
      rw [frame, append_assoc, take_left' (length_putUint 8 _)]
    have hdrop : (frame v ++ rest).drop 8 = v ++ rest := by
      rw [frame, append_assoc, drop_left' (length_putUint 8 _)]
    have hn : getUint (putUint 8 v.length) = v.length :=
      getUint_putUint 8 _ (Nat.lt_of_le_of_lt hv hlimit)
    have hlen : (frame v ++ rest).length = 8 + v.length + rest.length := by simp
    rw [if_neg (by omega), htake, hdrop, hn, if_neg (by simp; omega)]
    simp

/-- `Reader.ReadByte`, refusing what is not a flag. -/
def readFlag : Bytes → Option (Bool × Bytes)
  | [] => none
  | b :: rest => if b = 0 then some (false, rest) else if b = 1 then some (true, rest) else none

def flag (b : Bool) : Bytes := [if b then 1 else 0]

@[simp] theorem length_flag (b : Bool) : (flag b).length = 1 := rfl

theorem readFlag_iff {r rest : Bytes} {b : Bool} :
    readFlag r = some (b, rest) ↔ r = flag b ++ rest := by
  cases r with
  | nil => simp [readFlag, flag]
  | cons x r =>
    by_cases h₀ : x = 0
    · subst h₀
      cases b <;> simp [readFlag, flag]
    · by_cases h₁ : x = 1
      · subst h₁
        cases b <;> simp [readFlag, flag]
      · cases b <;> simp [readFlag, flag, h₀, h₁]

end ControlTower.Go
