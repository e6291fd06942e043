/-
Module: Bemtvi.Lib.Tickets
Purpose: Tickets that are issued to holders and settled later.  Each ticket is with its holder or
  settled, one of the two and once; issuing one and settling some keep it so.
Trusted boundary: none
Main exports: Book, Book.issue, Book.settle
-/
import Mathlib

namespace Bemtvi.Tickets

variable {ι : Type}

/-- `owner` lists whom each ticket was issued to, by its number. -/
structure Book (owner : List ι) (held : ι → List Nat) (settled : List Nat) : Prop where
  owned : ∀ (holder : ι) (ticket : Nat), ticket ∈ held holder → owner[ticket]? = some holder
  known : ∀ ticket ∈ settled, ticket < owner.length
  once : ∀ (ticket : Nat) (holder : ι), owner[ticket]? = some holder →
    (held holder).count ticket + settled.count ticket = 1

variable {owner : List ι} {held held' : ι → List Nat} {settled settled' : List Nat}

theorem Book.nil : Book ([] : List ι) (fun _ => []) [] := by
  constructor
  · intro holder ticket member
    cases member
  · intro ticket member
    cases member
  · intro ticket holder issued
    cases issued

/-- A ticket not issued yet is nowhere. -/
theorem Book.fresh (tickets : Book owner held settled) :
    (∀ holder, (held holder).count owner.length = 0) ∧ settled.count owner.length = 0 := by
  constructor
  · intro holder
    apply List.count_eq_zero.2
    intro member
    have issued := tickets.owned holder _ member
    rw [List.getElem?_eq_none (Nat.le_refl _)] at issued
    cases issued
  · apply List.count_eq_zero.2
    intro member
    exact Nat.lt_irrefl _ (tickets.known _ member)

/-- The next ticket is issued to a holder. -/
theorem Book.issue {holder : ι} (tickets : Book owner held settled)
    (own : (held' holder).Perm (held holder ++ [owner.length]))
    (others : ∀ other, other ≠ holder → held' other = held other) :
    Book (owner ++ [holder]) held' settled := by
  constructor
  · intro other ticket member
    by_cases same : other = holder
    · rw [same] at member ⊢
      rcases List.mem_append.1 (own.mem_iff.1 member) with old | new
      · have issued := tickets.owned holder ticket old
        rw [List.getElem?_append_left (List.getElem?_eq_some_iff.1 issued).1]
        exact issued
      · rw [List.mem_singleton.1 new]
        exact List.getElem?_concat_length
    · rw [others other same] at member
      have issued := tickets.owned other ticket member
      rw [List.getElem?_append_left (List.getElem?_eq_some_iff.1 issued).1]
      exact issued
  · intro ticket member
    rw [List.length_append]
    exact Nat.lt_add_right _ (tickets.known ticket member)
  · intro ticket other issued
    by_cases new : ticket = owner.length
    · subst new
      rw [List.getElem?_concat_length] at issued
      cases issued
      rw [own.count_eq, List.count_append, tickets.fresh.1, tickets.fresh.2]
      simp
    · have bound := (List.getElem?_eq_some_iff.1 issued).1
      rw [List.length_append, List.length_singleton] at bound
      rw [List.getElem?_append_left (by omega)] at issued
      have once := tickets.once ticket other issued
      by_cases same : other = holder
      · rw [same] at once ⊢
        have differs : ¬ owner.length = ticket := fun same => new same.symm
        rw [own.count_eq, List.count_append, List.count_singleton]
        simpa [differs] using once
      · rw [others other same]
        exact once

/-- A holder's tickets are settled, some of them. -/
theorem Book.settle {holder : ι} {done : List Nat} (tickets : Book owner held settled)
    (own : (held holder).Perm (held' holder ++ done))
    (others : ∀ other, other ≠ holder → held' other = held other)
    (all : settled'.Perm (settled ++ done)) : Book owner held' settled' := by
  have was : ∀ ticket, ticket ∈ held' holder → ticket ∈ held holder :=
    fun ticket member => own.mem_iff.2 (List.mem_append.2 (Or.inl member))
  constructor
  · intro other ticket member
    by_cases same : other = holder
    · rw [same] at member ⊢
      exact tickets.owned holder ticket (was ticket member)
    · rw [others other same] at member
      exact tickets.owned other ticket member
  · intro ticket member
    rcases List.mem_append.1 (all.mem_iff.1 member) with old | new
    · exact tickets.known ticket old
    · have issued := tickets.owned holder ticket (own.mem_iff.2 (List.mem_append.2 (Or.inr new)))
      exact (List.getElem?_eq_some_iff.1 issued).1
  · intro ticket other issued
    have once := tickets.once ticket other issued
    rw [all.count_eq, List.count_append]
    by_cases same : other = holder
    · rw [same] at once ⊢
      rw [own.count_eq, List.count_append] at once
      omega
    · have elsewhere : done.count ticket = 0 := by
        apply List.count_eq_zero.2
        intro member
        have issued' := tickets.owned holder ticket
          (own.mem_iff.2 (List.mem_append.2 (Or.inr member)))
        rw [issued] at issued'
        cases issued'
        exact same rfl
      rw [others other same, elsewhere]
      exact once

/-- Only the order in which tickets are held changes. -/
theorem Book.reorder (tickets : Book owner held settled)
    (same : ∀ holder, (held' holder).Perm (held holder)) : Book owner held' settled := by
  constructor
  · intro holder ticket member
    exact tickets.owned holder ticket ((same holder).mem_iff.1 member)
  · exact tickets.known
  · intro ticket holder issued
    rw [(same holder).count_eq]
    exact tickets.once ticket holder issued

end Bemtvi.Tickets
