/-
Module: Bemtvi.Lib.Trie
Purpose: A trie from words to values: what an insertion does to the value of each word, and which
  words can be walked after it.
Trusted boundary: none
Main exports: assign, Node, insert, descend, valueAt, valueAt_insert, descend_insert
-/
import Mathlib

namespace Bemtvi.Trie

/-- The value of the word that ends here, if any, and the letters that go on. -/
inductive Node (κ : Type) (β : Type) where
  | mk (children : List (κ × Node κ β)) (value : Option β)

/-- Put a value under a key, in the place of the one that is there. -/
def assign {κ γ : Type} [DecidableEq κ] (key : κ) (value : γ) : List (κ × γ) → List (κ × γ)
  | [] => [(key, value)]
  | (other, old) :: rest =>
      if other = key then (key, value) :: rest else (other, old) :: assign key value rest

theorem lookup_assign {κ γ : Type} [DecidableEq κ] (key other : κ) (value : γ)
    (entries : List (κ × γ)) :
    (assign key value entries).lookup other =
      if other = key then some value else entries.lookup other := by
  induction entries with
  | nil =>
      by_cases same : other = key
      · simp [assign, same]
      · simp [assign, List.lookup, beq_false_of_ne same, same]
  | cons entry rest ih =>
      obtain ⟨name, old⟩ := entry
      by_cases here : name = key
      · subst here
        by_cases same : other = name
        · simp [assign, same]
        · simp [assign, List.lookup, beq_false_of_ne same, same]
      · by_cases same : other = name
        · subst same
          simp [assign, here]
        · simp [assign, here, List.lookup, beq_false_of_ne same, ih]

namespace Node

variable {κ β : Type}

def children : Node κ β → List (κ × Node κ β)
  | mk children _ => children

def value : Node κ β → Option β
  | mk _ value => value

def empty : Node κ β := mk [] none

@[simp] theorem children_mk (children : List (κ × Node κ β)) (value : Option β) :
    (mk children value).children = children := rfl

@[simp] theorem value_mk (children : List (κ × Node κ β)) (value : Option β) :
    (mk children value).value = value := rfl

@[simp] theorem children_empty : (empty : Node κ β).children = [] := rfl

@[simp] theorem value_empty : (empty : Node κ β).value = none := rfl

variable [DecidableEq κ]

/-- The child under a letter. -/
def child (node : Node κ β) (letter : κ) : Option (Node κ β) :=
  node.children.lookup letter

def insert (node : Node κ β) : List κ → β → Node κ β
  | [], value => mk node.children (some value)
  | letter :: word, value =>
      mk (assign letter (insert ((node.child letter).getD empty) word value) node.children)
        node.value

/-- The node a word leads to. -/
def descend (node : Node κ β) : List κ → Option (Node κ β)
  | [] => some node
  | letter :: word =>
      match node.child letter with
      | some next => next.descend word
      | none => none

def valueAt (node : Node κ β) (word : List κ) : Option β :=
  (node.descend word).bind value

/-! ### Children -/

theorem child_empty (letter : κ) : (empty : Node κ β).child letter = none := rfl

@[simp] theorem descend_nil (node : Node κ β) : node.descend [] = some node := rfl

theorem descend_cons (node : Node κ β) (letter : κ) (word : List κ) :
    node.descend (letter :: word) = (node.child letter).bind (descend · word) := by
  rw [descend]
  cases node.child letter <;> rfl

theorem descend_append (node : Node κ β) (front back : List κ) :
    node.descend (front ++ back) = (node.descend front).bind (descend · back) := by
  induction front generalizing node with
  | nil => rfl
  | cons letter front ih =>
      rw [List.cons_append, descend_cons, descend_cons]
      cases node.child letter with
      | none => rfl
      | some next => exact ih next

theorem descend_empty (word : List κ) (some_letter : word ≠ []) :
    (empty : Node κ β).descend word = none := by
  cases word with
  | nil => exact absurd rfl some_letter
  | cons letter word => rw [descend_cons, child_empty]; rfl

/-! ### One insertion -/

theorem child_insert_cons (node : Node κ β) (letter other : κ) (word : List κ) (value : β) :
    (node.insert (letter :: word) value).child other =
      if other = letter then some (((node.child letter).getD empty).insert word value)
      else node.child other := by
  rw [child, insert, children_mk, lookup_assign]
  rfl

theorem child_insert_nil (node : Node κ β) (other : κ) (value : β) :
    (node.insert [] value).child other = node.child other := rfl

/-- An insertion gives its word the value and leaves every other word as it was. -/
theorem valueAt_insert (node : Node κ β) (word other : List κ) (value : β) :
    (node.insert word value).valueAt other =
      if other = word then some value else node.valueAt other := by
  induction word generalizing node other with
  | nil =>
      cases other with
      | nil => simp [valueAt, insert]
      | cons letter other => simp [valueAt, descend_cons, child_insert_nil]
  | cons letter word ih =>
      cases other with
      | nil => simp [valueAt, insert]
      | cons next other =>
          simp only [valueAt, descend_cons, child_insert_cons]
          by_cases same : next = letter
          · subst same
            have inner := ih ((node.child next).getD empty) other
            simp only [if_true, Option.bind_some, List.cons.injEq, true_and]
            rw [valueAt] at inner
            rw [inner]
            by_cases whole : other = word
            · simp [whole]
            · simp only [whole, if_false]
              cases there : node.child next with
              | some child => simp [valueAt]
              | none =>
                  cases other with
                  | nil => simp [valueAt]
                  | cons second other => simp [valueAt, descend_empty]
          · simp [same]

/-- The words that can be walked after an insertion: those of before and the parts of the new
word from its start. -/
theorem descend_insert (node : Node κ β) (word other : List κ) (value : β)
    (walked : ((node.insert word value).descend other).isSome) :
    (node.descend other).isSome ∨ List.IsPrefix other word := by
  induction word generalizing node other with
  | nil =>
      cases other with
      | nil => simp
      | cons letter other =>
          rw [descend_cons, child_insert_nil, ← descend_cons] at walked
          exact Or.inl walked
  | cons letter word ih =>
      cases other with
      | nil => simp
      | cons next other =>
          rw [descend_cons, child_insert_cons] at walked
          by_cases same : next = letter
          · subst same
            rw [if_pos rfl] at walked
            rcases ih _ _ walked with before | front
            · cases there : node.child next with
              | some child =>
                  rw [there] at before
                  left
                  simpa [descend_cons, there] using before
              | none =>
                  rw [there] at before
                  cases other with
                  | nil => simp
                  | cons second other => simp [descend_empty] at before
            · right
              simpa using front
          · rw [if_neg same, ← descend_cons] at walked
            exact Or.inl walked

/-- A word that can be walked on from is at a node with children. -/
theorem children_ne_nil {node next : Node κ β} {word : List κ}
    (walked : node.descend word = some next) (some_letter : word ≠ []) : node.children ≠ [] := by
  intro childless
  cases word with
  | nil => exact some_letter rfl
  | cons letter word =>
      rw [descend_cons, child, childless] at walked
      cases walked

end Node

end Bemtvi.Trie
