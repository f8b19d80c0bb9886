import ControlTower.Go.Json

/-! Duplicate keys of a JSON object, found on the stream of its tokens.

`walk` tells keys, scalars and delimiters apart by their place in the stream. On the tokens
of a value it reads exactly these, unless it finds that a key comes twice in an object or
that a value is too deep. -/
namespace ControlTower.Facts
open Go Go.Json

/-! ### The walk -/

/-- A key of an object: a name that was not seen. -/
def readKey (seen : List (List Char)) : List Token → Option (List (List Char) × List Token)
  | .string name :: rest => if name ∈ seen then none else some (name :: seen, rest)
  | _ => none

/-- The loop of `walk`, and the token that closes the value. Every turn reads a token, so the
number of tokens bounds the turns. -/
def walkItems (walk : List Token → Option (List Token)) (object : Bool) :
    Nat → List (List Char) → List Token → Option (List Token)
  | 0, _, _ => none
  | turns + 1, seen, tokens =>
    if more tokens then do
      let (seen, tokens) ← if object then readKey seen tokens else some (seen, tokens)
      walkItems walk object turns seen (← walk tokens)
    else tokens.tail?

/-- `walk(depth)`, by the levels from `depth` to 100: `none` where the source returns true,
and else the tokens that are left. -/
def walk : Nat → List Token → Option (List Token)
  | 0, _ => none
  | _ + 1, [] => none
  | levels + 1, .delim d :: rest =>
    walkItems (walk levels) (d == .openObject) (rest.length + 1) [] rest
  | _ + 1, _ :: rest => some rest

def duplicateJSONKey (tokens : List Token) : Bool :=
  match walk 101 tokens with
  | none => true
  | some rest => !rest.isEmpty

/-! ### What it finds -/

/-- So many levels hold the value, and no object has a key twice. -/
def Fine (levels : Nat) (t : Text) : Prop :=
  ∀ depth inner, Text.At depth inner t → depth < levels ∧ inner.keys.Nodup

theorem not_fine_zero (t : Text) : ¬Fine 0 t := fun h => Nat.not_lt_zero 0 (h 0 t (.root t)).1

theorem fine_succ {levels : Nat} {t : Text} : Fine (levels + 1) t ↔ t.keys.Nodup ∧ ∀ c ∈ t.children,
    Fine levels c := by
  constructor
  · intro h
    exact ⟨(h 0 t (.root t)).2, fun c hc depth inner hat =>
      (h (depth + 1) inner (.child hc hat)).imp_left Nat.lt_of_succ_lt_succ⟩
  · rintro ⟨hkeys, hchildren⟩ depth inner hat
    cases hat with
    | root => exact ⟨Nat.succ_pos levels, hkeys⟩
    | child hc hat => exact (hchildren _ hc _ _ hat).imp_left Nat.succ_lt_succ

theorem readKey_eq_some {seen seen' : List (List Char)} {name : List Char}
    {rest tokens : List Token} :
    readKey seen (.string name :: rest) = some (seen', tokens) ↔ name ∉ seen ∧
      seen' = name :: seen ∧ tokens = rest := by
  rw [readKey, Option.ite_none_left_eq_some, Option.some.injEq, Prod.mk.injEq,
    eq_comm (a := name :: seen), eq_comm (a := rest)]

section
variable {f : List Token → Option (List Token)} {good : Text → Prop} {turns : Nat}
  {rest out : List Token}
  (hf : ∀ t rest out, f (Text.tokens t ++ rest) = some out ↔ good t ∧ out = rest)
include hf

/-- One turn over an item. -/
theorem walkItems_item {seen : List (List Char)} (t : Text) :
    walkItems f false (turns + 1) seen (t.tokens ++ rest) = some out ↔ good t ∧
      walkItems f false turns seen rest = some out := by
  simp only [walkItems, more_tokens, if_true, Bool.false_eq_true, if_false, Option.bind_eq_bind,
    Option.bind_some,
    Option.bind_eq_some_iff, hf, and_assoc, exists_and_left, exists_eq_left]

/-- One turn over a member. -/
theorem walkItems_member {seen : List (List Char)} (name : List Char)
    (t : Text) : walkItems f true (turns + 1) seen (.string name :: (t.tokens ++ rest)) = some out ↔
      name ∉ seen ∧ good t ∧ walkItems f true turns (name :: seen) rest = some out := by
  simp only [walkItems, more, if_true, Option.bind_eq_bind, Option.bind_eq_some_iff, Prod.exists,
    readKey_eq_some]
  constructor
  · rintro ⟨_, _, ⟨hname, rfl, rfl⟩, _, ht, h⟩
    obtain ⟨hgood, rfl⟩ := (hf _ _ _).mp ht
    exact ⟨hname, hgood, h⟩
  · rintro ⟨hname, hgood, h⟩
    exact ⟨_, _, ⟨hname, rfl, rfl⟩, _, (hf _ _ _).mpr ⟨hgood, rfl⟩, h⟩

theorem walkItems_array (items : List Text)
    (hturns : (Text.itemTokens items).length < turns) :
    walkItems f false turns [] (Text.itemTokens items ++ .delim .closeArray :: rest) = some out ↔
      (∀ t ∈ items, good t) ∧ out = rest := by
  induction items generalizing turns with
  | nil =>
    cases turns with
    | zero => cases hturns
    | succ turns => simp [Text.itemTokens, walkItems, more, eq_comm]
  | cons t items ih =>
    cases turns with
    | zero => cases hturns
    | succ turns =>
      have hpos := length_tokens_pos t
      rw [Text.itemTokens, List.length_append] at hturns
      rw [Text.itemTokens, List.append_assoc, walkItems_item hf, ih (by omega),
        List.forall_mem_cons, and_assoc]

theorem walkItems_object (members : List (List Piece × Text))
    (seen : List (List Char)) (hturns : (Text.memberTokens members).length < turns) :
    walkItems f true turns seen (Text.memberTokens members ++ .delim .closeObject :: rest) =
      some out ↔
      ((members.map fun m => decode m.1).Nodup ∧ ∀ m ∈ members, decode m.1 ∉ seen) ∧
        (∀ m ∈ members, good m.2) ∧ out = rest := by
  induction members generalizing turns seen with
  | nil =>
    cases turns with
    | zero => cases hturns
    | succ turns => simp [Text.memberTokens, walkItems, more, eq_comm]
  | cons m members ih =>
    cases turns with
    | zero => cases hturns
    | succ turns =>
      rw [Text.memberTokens, List.length_cons, List.length_append] at hturns
      rw [Text.memberTokens, List.cons_append, List.append_assoc, walkItems_member hf,
        ih _ (by omega), List.forall_mem_cons, List.forall_mem_cons,
        List.map_cons, List.nodup_cons]
      simp only [List.mem_cons, not_or, List.mem_map, not_exists, not_and]
      constructor
      · rintro ⟨hkey, ht, ⟨hnodup, hseen⟩, hgood, hout⟩
        exact ⟨⟨⟨fun m hm => (hseen m hm).1, hnodup⟩, hkey, fun m hm => (hseen m hm).2⟩,
          ⟨ht, hgood⟩, hout⟩
      · rintro ⟨⟨⟨hne, hnodup⟩, hkey, hseen⟩, ⟨ht, hgood⟩, hout⟩
        exact ⟨hkey, ht, ⟨hnodup, fun m hm => ⟨hne m hm, hseen m hm⟩⟩, hgood, hout⟩

end

/-- **The walk over a value**: it goes on behind the value's tokens, if the value is fine. -/
theorem walk_tokens (levels : Nat) (t : Text) (rest out : List Token) :
    walk levels (t.tokens ++ rest) = some out ↔ Fine levels t ∧ out = rest := by
  induction levels generalizing t rest out with
  | zero =>
    have hnone : walk 0 (t.tokens ++ rest) = none := rfl
    simp [hnone, not_fine_zero]
  | succ levels ih =>
    have hscalar : ∀ token, walk (levels + 1) ([token] ++ rest) = some rest → t.tokens = [token] →
        t.keys = [] → t.children = [] →
        (walk (levels + 1) (t.tokens ++ rest) = some out ↔ Fine (levels + 1) t ∧ out = rest) := by
      intro token hwalk htokens hkeys hchildren
      rw [htokens, hwalk, fine_succ, hkeys, hchildren]
      simp [eq_comm]
    cases t with
    | null => exact hscalar _ rfl rfl rfl rfl
    | bool b => exact hscalar _ rfl rfl rfl rfl
    | number literal => exact hscalar _ rfl rfl rfl rfl
    | string literal => exact hscalar _ rfl rfl rfl rfl
    | array items =>
      rw [Text.tokens, List.cons_append, List.append_assoc, fine_succ]
      refine (walkItems_array ih items ?_).trans ?_
      · rw [List.length_append]
        omega
      · simp [Text.keys, Text.children]
    | object members =>
      rw [Text.tokens, List.cons_append, List.append_assoc, fine_succ]
      refine (walkItems_object ih members [] ?_).trans ?_
      · rw [List.length_append]
        omega
      · simp only [Text.keys, Text.children, List.forall_mem_map, List.not_mem_nil,
          not_false_eq_true, implies_true, and_true, and_assoc]
        rfl

/-- **Duplicate keys are found.** On a JSON text with an object at its root the source returns
true exactly when an object at any depth has two members of one decoded key, or a value is
more than 100 levels deep. -/
theorem duplicateJSONKey_iff (members : List (List Piece × Text)) :
    duplicateJSONKey (Text.object members).tokens = true ↔
      (∃ depth inner, Text.At depth inner (.object members) ∧ ¬inner.keys.Nodup) ∨
      ∃ depth inner, Text.At depth inner (.object members) ∧ 100 < depth := by
  have hwalk := walk_tokens 101 (.object members) []
  rw [List.append_nil] at hwalk
  have hfine : duplicateJSONKey (Text.object members).tokens = true ↔
      ¬Fine 101 (.object members) := by
    unfold duplicateJSONKey
    cases h : walk 101 (Text.object members).tokens with
    | none =>
      refine iff_of_true rfl fun hf => ?_
      cases h.symm.trans ((hwalk []).mpr ⟨hf, rfl⟩)
    | some out =>
      obtain ⟨hf, rfl⟩ := (hwalk out).mp h
      simp [hf]
  rw [hfine]
  constructor
  · intro h
    by_contra hnone
    obtain ⟨hkeys, hdeep⟩ := not_or.mp hnone
    refine h fun depth inner hat => ⟨?_, ?_⟩
    · exact Nat.lt_succ_of_le (Nat.le_of_not_lt fun hd => hdeep ⟨depth, inner, hat, hd⟩)
    · exact Classical.byContradiction fun hd => hkeys ⟨depth, inner, hat, hd⟩
  · rintro (⟨depth, inner, hat, hkeys⟩ | ⟨depth, inner, hat, hdeep⟩) h
    · exact hkeys (h depth inner hat).2
    · have := (h depth inner hat).1
      omega

/-- A key that is written in two ways comes twice, and one of another object does not. -/
example :
    duplicateJSONKey (Text.object [([.plain 'a'], .null), ([.unicode 0x61], .null)]).tokens = true ∧
    duplicateJSONKey (Text.object [([.plain 'a'], .object [([.plain 'a'], .null)]),
      ([.plain 'b'], .array [.null, .null])]).tokens = false := by
  decide

end ControlTower.Facts
