import Backtrack.Terminal

/-!
# Values and containers

A rule that matches constructs a value. Grammars are data, so values are dynamic: the rule decides
which of the forms below it constructs. Repeated rules gather the values of their matches in a
container, which is a value that grows.
-/

namespace Backtrack

/-- What a rule constructs from the terminals it consumed. -/
inductive Value where
  /-- The value of rules that only match. -/
  | unit
  | integer (n : Int)
  | terminal (t : Terminal)
  /-- The value of an optional rule that did not match. -/
  | absent
  /-- The value of an optional rule that matched. -/
  | present (v : Value)
  | list (items : Array Value)
  /-- A set of integers, ascending. -/
  | set (members : List Int)
  | text (s : String)
  /-- The number of values gathered. -/
  | count (n : Nat)
  /-- The values of a sequence of rules. -/
  | tuple (members : List Value)
  /-- A value with a name of its own. -/
  | record (name : String) (fields : List Value)
  deriving Inhabited, Repr

namespace Value

/-- The value of an optional rule. -/
def ofOption : Option Value → Value
  | none => absent
  | some v => present v

end Value

/-- Adds a number to an ascending list without repetitions, unless it is there. -/
def insertAscending (n : Int) : List Int → List Int
  | [] => [n]
  | m :: rest =>
    if n < m then n :: m :: rest
    else if n = m then m :: rest
    else m :: insertAscending n rest

theorem mem_insertAscending {n m : Int} {members : List Int} :
    m ∈ insertAscending n members ↔ m = n ∨ m ∈ members := by
  induction members with
  | nil => simp [insertAscending]
  | cons k rest ih =>
    simp only [insertAscending]
    split
    · simp
    · split
      · simp_all
      · simp only [List.mem_cons, ih]
        exact or_left_comm

/-- A list that ascends still does with one more number in it. -/
theorem pairwise_insertAscending (n : Int) {members : List Int}
    (h : members.Pairwise (· < ·)) : (insertAscending n members).Pairwise (· < ·) := by
  induction members with
  | nil => simp [insertAscending]
  | cons k rest ih =>
    obtain ⟨hk, hrest⟩ := List.pairwise_cons.1 h
    simp only [insertAscending]
    split
    · rename_i hlt
      refine List.pairwise_cons.2 ⟨fun m hm => ?_, h⟩
      rcases List.mem_cons.1 hm with rfl | hm
      · exact hlt
      · exact Int.lt_trans hlt (hk m hm)
    · split
      · exact h
      · rename_i hlt hne
        refine List.pairwise_cons.2 ⟨fun m hm => ?_, ih hrest⟩
        rcases mem_insertAscending.1 hm with rfl | hm
        · omega
        · exact hk m hm

/-- What a repeated rule gathers the values of its matches in. -/
inductive Container where
  /-- A growable list. -/
  | vector
  /-- A list that grows at both ends; repeated rules add at the back. -/
  | deque
  /-- The set of the integers constructed. -/
  | set
  /-- The text of the characters constructed. -/
  | text
  /-- The number of matches. -/
  | count
  /-- Nothing; for rules that only match. -/
  | unit
  deriving DecidableEq, Repr

namespace Container

/-- The container before the first match. -/
def empty : Container → Value
  | vector => .list #[]
  | deque => .list #[]
  | set => .set []
  | text => .text ""
  | count => .count 0
  | unit => .unit

/-- The container after one more match. Values that the container has no place for are dropped. -/
def extend : Value → Value → Value
  | .list items, v => .list (items.push v)
  | .set members, .integer n => .set (insertAscending n members)
  | .text s, .terminal t => .text (s.push (Char.ofNat t))
  | .count n, _ => .count (n + 1)
  | container, _ => container

/-- The container of a list of matches. -/
def ofValues (container : Container) (vs : List Value) : Value :=
  vs.foldl extend container.empty

end Container

end Backtrack
