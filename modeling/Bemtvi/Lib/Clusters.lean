/-
Module: Bemtvi.Lib.Clusters
Purpose: A text cut into clusters, addressed by UTF-8 byte offsets: where the clusters start, the ones
  that end by an offset, and the cuts between them.
Trusted boundary: human-reviewed spec
Main exports: startsFrom, endsFrom, upto, Cut, upto_append, upto_mono, Cut.le_upto, take_singles
-/
import Bemtvi.Lib.Text

namespace Bemtvi.Clusters

open Utf8

/-- The clusters with the offsets they start at. -/
def startsFrom : Nat → List Text → List (Nat × Text)
  | _, [] => []
  | byte, g :: rest => (byte, g) :: startsFrom (byte + size g) rest

/-- The offsets the clusters end at. -/
def endsFrom : Nat → List Text → List Nat
  | _, [] => []
  | byte, g :: rest => (byte + size g) :: endsFrom (byte + size g) rest

/-- The clusters that end by an offset. -/
def upto : List Text → Nat → List Text
  | [], _ => []
  | g :: rest, byte => if size g ≤ byte then g :: upto rest (byte - size g) else []

/-- An offset between two clusters, or at either end. -/
def Cut (gs : List Text) (byte : Nat) : Prop := ∃ k, size (gs.take k).flatten = byte

variable {byte : Nat} {gs : List Text}

theorem cut_iff_ends {base : Nat} :
    (byte = base ∨ byte ∈ endsFrom base gs) ↔ ∃ k, base + size (gs.take k).flatten = byte := by
  induction gs generalizing base with
  | nil =>
      simp only [endsFrom, List.not_mem_nil, or_false, List.take_nil, List.flatten_nil, size_nil,
        Nat.add_zero, exists_const]
      exact eq_comm
  | cons g rest ih =>
      rw [endsFrom, List.mem_cons, ih]
      constructor
      · rintro (same | ⟨k, same⟩)
        · exact ⟨0, same.symm⟩
        · refine ⟨k + 1, ?_⟩
          rw [List.take_succ_cons, List.flatten_cons, size_append]
          omega
      · rintro ⟨k, same⟩
        cases k with
        | zero => exact Or.inl same.symm
        | succ k =>
            rw [List.take_succ_cons, List.flatten_cons, size_append] at same
            exact Or.inr ⟨k, by omega⟩

/-! ### The clusters that end by an offset -/

theorem upto_front (gs : List Text) (byte : Nat) : upto gs byte <+: gs := by
  induction gs generalizing byte with
  | nil => exact List.prefix_refl []
  | cons g rest ih =>
      rw [upto]
      split
      · exact (List.prefix_cons_inj g).2 (ih _)
      · exact List.nil_prefix

theorem size_upto_le (gs : List Text) (byte : Nat) : size (upto gs byte).flatten ≤ byte := by
  induction gs generalizing byte with
  | nil => exact Nat.zero_le _
  | cons g rest ih =>
      rw [upto]
      split
      · next fits =>
          rw [List.flatten_cons, size_append]
          have behind := ih (byte - size g)
          omega
      · exact Nat.zero_le _

theorem upto_append (front rest : List Text) (byte : Nat) :
    upto (front ++ rest) (size front.flatten + byte) = front ++ upto rest byte := by
  induction front with
  | nil => simp
  | cons g front ih =>
      rw [List.flatten_cons, size_append, List.cons_append, upto, if_pos (by omega),
        List.cons_append]
      congr 1
      rw [← ih]
      congr 1
      omega

theorem upto_all (whole : size gs.flatten ≤ byte) : upto gs byte = gs := by
  have split := upto_append gs [] (byte - size gs.flatten)
  rw [List.append_nil, Nat.add_sub_cancel' whole] at split
  rw [split, upto, List.append_nil]

theorem upto_mono (gs : List Text) {byte' : Nat} (ordered : byte ≤ byte') :
    upto gs byte <+: upto gs byte' := by
  induction gs generalizing byte byte' with
  | nil => exact List.prefix_refl []
  | cons g rest ih =>
      rw [upto, upto]
      split
      · next fits =>
          rw [if_pos (Nat.le_trans fits ordered), List.prefix_cons_inj]
          exact ih (Nat.sub_le_sub_right ordered _)
      · exact List.nil_prefix

theorem cut_upto (gs : List Text) (byte : Nat) : Cut gs (size (upto gs byte).flatten) := by
  refine ⟨(upto gs byte).length, ?_⟩
  rw [← List.prefix_iff_eq_take.1 (upto_front gs byte)]

/-- What ends by an offset reaches the last cut there. -/
theorem Cut.le_upto {cut : Nat} (lies : Cut gs cut) (ordered : cut ≤ byte) :
    cut ≤ size (upto gs byte).flatten := by
  rcases lies with ⟨k, same⟩
  have front := upto_append (gs.take k) (gs.drop k) (byte - cut)
  rw [List.take_append_drop, same, Nat.add_sub_cancel' ordered] at front
  rw [front, List.flatten_append, size_append, same]
  exact Nat.le_add_right _ _

/-! ### Single characters -/

theorem flatten_singles (text : Text) : (text.map fun c => [c]).flatten = text := by
  induction text with
  | nil => rfl
  | cons c text ih => rw [List.map_cons, List.flatten_cons, ih, List.singleton_append]

/-- Where there is a cut behind each of the first characters, they are clusters of their own. -/
theorem take_singles (nonempty : [] ∉ gs) {m : Nat} (inside : m ≤ gs.flatten.length)
    (cuts : ∀ i ≤ m, ∃ k, (gs.take k).flatten = gs.flatten.take i) :
    gs.take m = (gs.flatten.take m).map fun c => [c] := by
  induction m with
  | zero => rfl
  | succ m ih =>
      have front := ih (by omega) fun i small => cuts i (by omega)
      have length : (gs.take m).length = m := by
        rw [front, List.length_map, List.length_take]
        omega
      have flat : (gs.take m).flatten = gs.flatten.take m := by
        rw [front]
        exact flatten_singles _
      rcases cuts (m + 1) (Nat.le_refl _) with ⟨k, next⟩
      -- The cut lies behind the first `m` clusters, and one character further.
      have beyond : m < k := by
        by_contra short
        have shorter : (gs.take k).flatten.length ≤ (gs.take m).flatten.length := by
          have within := List.take_prefix_take_left (l := gs) (Nat.le_of_not_lt short)
          rcases within with ⟨more, whole⟩
          rw [← whole, List.flatten_append, List.length_append]
          exact Nat.le_add_right _ _
        rw [next, flat, List.length_take, List.length_take] at shorter
        omega
      have split : gs.take k = gs.take m ++ (gs.drop m).take (k - m) := by
        rw [← List.take_add, Nat.add_sub_cancel' (Nat.le_of_lt beyond)]
      have rest : ((gs.drop m).take (k - m)).flatten = [gs.flatten[m]] := by
        rw [split, List.flatten_append, flat, List.take_succ_eq_append_getElem (by omega)] at next
        exact List.append_cancel_left next
      cases behind : gs.drop m with
      | nil => simp [behind] at rest
      | cons g later =>
          have member : g ∈ gs := List.mem_of_mem_drop (behind ▸ List.mem_cons_self)
          rcases Nat.exists_eq_succ_of_ne_zero (Nat.ne_of_gt (Nat.sub_pos_of_lt beyond)) with
            ⟨n, count⟩
          rw [behind, count, List.take_succ_cons, List.flatten_cons] at rest
          have first : g = [gs.flatten[m]] := by
            cases g with
            | nil => exact absurd member nonempty
            | cons c g =>
                rcases List.cons_eq_cons.1 rest with ⟨same, none_left⟩
                rw [same, (List.append_eq_nil_iff.1 none_left).1]
          have there : gs[m]? = some g := by
            rw [← List.head?_drop, behind]
            rfl
          rw [List.take_add_one, there, front, first, List.take_succ_eq_append_getElem (by omega),
            List.map_append]
          rfl

end Bemtvi.Clusters
