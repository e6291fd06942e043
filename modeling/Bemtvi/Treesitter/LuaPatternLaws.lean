/-
Module: Bemtvi.Treesitter.LuaPatternLaws
Purpose: The matcher of Lua's string patterns finds a match exactly where the pattern's items have
  one, as far as its depth reaches.
Trusted boundary: proofs are kernel-checked; definitions are inherited from imported modules
Main exports: doMatch_owes, luaMatch_finds, luaMatch_too_deep
-/
import Bemtvi.Treesitter.LuaPattern

namespace Bemtvi.Treesitter

open Patterns
open Utf8 (byteOf)

/-! ### Where a single item ends -/

theorem setEnd_length (p : Bytes) {ep : Bytes} (ends : setEnd p = some ep) :
    ep.length < p.length := by
  fun_induction setEnd p with
  | case1 => cases ends
  | case2 => cases ends
  | case3 => cases ends
  | case4 =>
      cases ends
      simp only [List.length_cons]
      omega
  | case5 _ _ _ _ ih =>
      have shorter := ih ends
      simp only [List.length_cons] at shorter ⊢
      omega
  | case6 =>
      cases ends
      simp only [List.length_cons]
      omega
  | case7 _ _ _ _ _ ih =>
      have shorter := ih ends
      simp only [List.length_cons] at shorter ⊢
      omega

variable {p : Bytes} {item : Item UInt8} {c : UInt8} {caps : List Capture}

theorem classEnd_length {ep : Bytes} (ends : classEnd p = some ep) : ep.length < p.length := by
  cases p with
  | nil => cases ends
  | cons c p =>
      simp only [classEnd] at ends
      split at ends
      · cases p with
        | nil => cases ends
        | cons d p =>
            cases ends
            simp only [List.length_cons]
            omega
      · split at ends
        · have shorter := setEnd_length _ ends
          split at shorter
          all_goals
            simp only [List.length_cons, List.length_drop] at shorter ⊢
            omega
        · cases ends
          simp only [List.length_cons]
          omega

theorem parseSingle_length {rest : Bytes} (parsed : parseSingle p = some (item, rest)) :
    rest.length < p.length := by
  rw [parseSingle] at parsed
  cases ends : classEnd p with
  | none =>
      rw [ends] at parsed
      cases parsed
  | some ep =>
      have shorter := classEnd_length ends
      rw [ends] at parsed
      cases ep with
      | nil =>
          cases parsed
          exact shorter
      | cons q ep =>
          simp only at parsed
          repeat' split at parsed
          all_goals
            cases parsed
            simp only [List.length_cons] at shorter ⊢
            omega

/-! ### What a pattern spells -/

theorem parses_nil {items : List (Item UInt8)} : Parses [] items ↔ items = [] := by
  constructor
  · intro spelled
    cases spelled with
    | nil => rfl
    | cons parsed => cases parsed
  · rintro rfl
    exact .nil

theorem parses_cons {rest : Bytes} (parsed : parseItem (c :: p) = some (item, rest))
    (items : List (Item UInt8)) :
    Parses (c :: p) items ↔ ∃ behind, items = item :: behind ∧ Parses rest behind := by
  constructor
  · intro spelled
    cases spelled with
    | cons first spelled =>
        rw [parsed] at first
        cases first
        exact ⟨_, rfl, spelled⟩
  · rintro ⟨behind, rfl, spelled⟩
    exact .cons parsed spelled

theorem not_parses (malformed : parseItem (c :: p) = none) (items : List (Item UInt8)) :
    ¬ Parses (c :: p) items := by
  intro spelled
  cases spelled with
  | cons first spelled =>
      rw [malformed] at first
      cases first

/-! ### The ways through an item -/

section Ways

variable {go : List Capture → Nat → Bytes → Attempt} {src : Bytes}

/-- A failure leaves the captures as they were. -/
def Restores (go : List Capture → Nat → Bytes → Attempt) : Prop :=
  ∀ caps s p, (go caps s p).1 = none → (go caps s p).2 = caps

theorem startCapture_eq (caps : List Capture) (s : Nat) (p : Bytes) (what : Extent) :
    (startCapture go caps s p what).1 = (go (caps ++ [⟨s, what⟩]) s p).1 := by
  rw [startCapture]
  split <;> simp_all

variable {caps back caps' : List Capture} {p : Bytes} {s s' : Nat}
  {next : List Capture → Nat → Attempt}

theorem startCapture_restores (restores : Restores go) {what : Extent}
    (failed : (startCapture go caps s p what).1 = none) :
    (startCapture go caps s p what).2 = caps := by
  have same : _ = (go (caps ++ [⟨s, what⟩]) s p).1 := startCapture_eq caps s p what
  have left := restores (caps ++ [⟨s, what⟩]) s p (same ▸ failed)
  rw [startCapture] at failed ⊢
  split at failed
  · cases failed
  · next attempted =>
      rw [attempted] at left
      simp only at left ⊢
      rw [left, List.dropLast_concat]

theorem startCapture_explores (restores : Restores go) (caps : List Capture) (s : Nat) (p : Bytes) :
    Explores src 0 .openCapture (go · · p) caps s (startCapture go caps s p .unfinished) := by
  refine .only .openCapture ?_ (startCapture_eq caps s p _) (startCapture_restores restores)
  intro caps'' s'' step
  cases step
  exact ⟨rfl, rfl⟩

theorem positionCapture_explores (restores : Restores go) (caps : List Capture) (s : Nat)
    (p : Bytes) :
    Explores src 0 .positionCapture (go · · p) caps s (startCapture go caps s p .position) := by
  refine .only .positionCapture ?_ (startCapture_eq caps s p _) (startCapture_restores restores)
  intro caps'' s'' step
  cases step
  exact ⟨rfl, rfl⟩

theorem lastUnfinished_concat (caps : List Capture) (capture : Capture) :
    lastUnfinished (caps ++ [capture]) =
      if capture.extent = .unfinished then some caps.length else lastUnfinished caps := by
  rw [lastUnfinished, List.length_append, List.length_singleton, List.range_succ,
    List.reverse_append, List.reverse_singleton, List.singleton_append, List.find?_cons,
    List.getElem?_concat_length, Option.any_some]
  split
  · next last => rw [if_pos (by simpa using last)]
  · next last =>
      rw [if_neg (by simpa using last), lastUnfinished]
      refine List.find?_congr fun i among => ?_
      rw [List.mem_reverse, List.mem_range] at among
      rw [List.getElem?_append_left among]

theorem lastUnfinished_eq (finished : ∀ c ∈ back, c.extent ≠ .unfinished) (front : List Capture)
    (init : Nat) : lastUnfinished (front ++ ⟨init, .unfinished⟩ :: back) = some front.length := by
  induction back using List.reverseRecOn with
  | nil => rw [lastUnfinished_concat, if_pos rfl]
  | append_singleton back capture ih =>
      rw [← List.cons_append, ← List.append_assoc, lastUnfinished_concat,
        if_neg (finished capture (by simp))]
      exact ih fun c among => finished c (List.mem_append_left _ among)

theorem lastUnfinished_none (nothing : lastUnfinished caps = none) :
    ∀ c ∈ caps, c.extent ≠ .unfinished := by
  induction caps using List.reverseRecOn with
  | nil => simp
  | append_singleton caps capture ih =>
      rw [lastUnfinished_concat] at nothing
      split at nothing
      · cases nothing
      · next last =>
          intro c among
          rcases List.mem_append.1 among with before | here
          · exact ih nothing c before
          · exact List.mem_singleton.1 here ▸ last

theorem lastUnfinished_some {l : Nat} (found : lastUnfinished caps = some l) :
    ∃ front init back, caps = front ++ ⟨init, .unfinished⟩ :: back ∧ l = front.length ∧
      ∀ c ∈ back, c.extent ≠ .unfinished := by
  induction caps using List.reverseRecOn with
  | nil => cases found
  | append_singleton caps capture ih =>
      rw [lastUnfinished_concat] at found
      split at found
      · next last =>
          cases found
          exact ⟨caps, capture.init, [], by rw [← last], rfl, by simp⟩
      · next last =>
          obtain ⟨front, init, back, rfl, rfl, finished⟩ := ih found
          refine ⟨front, init, back ++ [capture], by simp, rfl, ?_⟩
          intro c among
          rcases List.mem_append.1 among with before | here
          · exact finished c before
          · exact List.mem_singleton.1 here ▸ last

theorem setExtent_at (front back : List Capture) (capture : Capture) (extent : Nat → Extent) :
    setExtent (front ++ capture :: back) front.length extent =
      front ++ { capture with extent := extent capture.init } :: back := by
  induction front with
  | nil => rfl
  | cons c front ih => exact congrArg (c :: ·) ih

theorem closeCapture_alone {front : List Capture} {init : Nat}
    (finished : ∀ c ∈ back, c.extent ≠ .unfinished)
    (step : Step src 0 .closeCapture (front ++ ⟨init, .unfinished⟩ :: back) s caps' s') :
    caps' = front ++ ⟨init, .closed (s - init)⟩ :: back ∧ s' = s := by
  generalize whole : front ++ ⟨init, .unfinished⟩ :: back = caps at step
  cases step with
  | @closeCapture front' back' init' _ finished' =>
      have place := lastUnfinished_eq finished front init
      rw [whole, lastUnfinished_eq finished' front' init', Option.some.injEq] at place
      obtain ⟨rfl, behind⟩ := List.append_inj whole place.symm
      cases behind
      exact ⟨rfl, rfl⟩

theorem endCapture_explores (restores : Restores go) (caps : List Capture) (s : Nat) (p : Bytes) :
    Explores src 0 .closeCapture (go · · p) caps s (endCapture go caps s p) := by
  rw [endCapture]
  cases found : lastUnfinished caps with
  | none =>
      refine .none fun caps' s' step => ?_
      cases step
      exact lastUnfinished_none found _ (List.mem_append_right _ List.mem_cons_self) rfl
  | some l =>
      obtain ⟨front, init, back, rfl, rfl, finished⟩ := lastUnfinished_some found
      simp only [setExtent_at]
      have left := restores (front ++ ⟨init, .closed (s - init)⟩ :: back) s p
      refine .only (.closeCapture finished) (fun _ _ => closeCapture_alone finished) ?_ ?_
      · split <;> simp_all
      · intro failed
        split at failed
        · cases failed
        · next attempted =>
            rw [attempted] at left
            simp only at left ⊢
            rw [left trivial, setExtent_at]

theorem matchCapture_iff {ns : Nat} {d : UInt8} : matchCapture src caps s d = some ns ↔
      Step src 0 (.back (d - byteOf '1').toNat) caps s caps ns := by
  rw [matchCapture]
  constructor
  · intro found
    split at found
    · next init length held =>
        split at found
        · next fits =>
            cases found
            exact .back held fits.1 fits.2
        · cases found
    · cases found
  · intro step
    cases step with
    | back held fits same => rw [held]; exact if_pos ⟨fits, same⟩

theorem back_keeps {index : Nat} (step : Step src 0 (.back index) caps s caps' s') :
    caps' = caps := by
  cases step
  rfl

theorem back_alone {index : Nat} {s'' : Nat} (step : Step src 0 (.back index) caps s caps s')
    (step' : Step src 0 (.back index) caps s caps' s'') : caps' = caps ∧ s'' = s' := by
  cases step with
  | back held =>
      cases step' with
      | back held' =>
          rw [held, Option.some.injEq] at held'
          cases held'
          exact ⟨rfl, rfl⟩

theorem drop_eq_cons_iff {b : UInt8} {rest : Bytes} :
    src.drop s = b :: rest ↔ src[s]? = some b ∧ src.drop (s + 1) = rest := by
  rw [← List.head?_drop, ← List.tail_drop]
  cases src.drop s <;> simp

theorem matchBalance_explores (restores : Restores go) (caps : List Capture) (s : Nat)
    (b e : UInt8) (p : Bytes) :
    Explores src 0 (.balance b e) (go · · p) caps s (matchBalance go src caps s (b :: e :: p)) := by
  rw [matchBalance]
  split
  · next here =>
      have counted : ∀ taken, balancedEnd b e 1 (src.drop (s + 1)) = some taken ↔
          ∃ inner behind, src.drop (s + 1) = inner ++ e :: behind ∧ taken = inner.length + 1 ∧
            Enclosed b e 1 inner := fun taken => balancedEnd_iff le_rfl
      split
      · next count found =>
          obtain ⟨inner, behind, whole, rfl, enclosed⟩ := (counted count).1 found
          refine .only (.balance (drop_eq_cons_iff.2 ⟨here, whole⟩) enclosed) ?_ ?_
            (restores caps _ p)
          · intro caps' s' step
            cases step with
            | @balance _ _ _ _ inner' behind' whole' enclosed' =>
                have again := (counted _).2
                  ⟨inner', behind', (drop_eq_cons_iff.1 whole').2, rfl, enclosed'⟩
                rw [found, Option.some.injEq] at again
                exact ⟨rfl, by omega⟩
          · rw [show s + 1 + (inner.length + 1) = s + inner.length + 2 by omega]
      · next nothing =>
          refine .none fun caps' s' step => ?_
          cases step with
          | balance whole enclosed =>
              rw [(counted _).2 ⟨_, _, (drop_eq_cons_iff.1 whole).2, rfl, enclosed⟩] at nothing
              cases nothing
  · next elsewhere =>
      refine .none fun caps' s' step => ?_
      cases step with
      | balance whole enclosed => exact elsewhere (drop_eq_cons_iff.1 whole).1

theorem frontier_iff {test : UInt8 → Bool} :
    Step src 0 (.frontier test) caps s caps' s' ↔ caps' = caps ∧ s' = s ∧
      (!test (if s = 0 then 0 else src.getD (s - 1) 0) && test (src.getD s 0)) = true := by
  constructor
  · intro step
    cases step with
    | frontier before behind => exact ⟨rfl, rfl, by rw [before, behind]; rfl⟩
  · rintro ⟨rfl, rfl, both⟩
    rw [Bool.and_eq_true, Bool.not_eq_true'] at both
    exact .frontier both.1 both.2

theorem frontier_explores (set : Bytes) (caps : List Capture) (s : Nat)
    (restores : (next caps s).1 = none → (next caps s).2 = caps) :
    Explores src 0 (.frontier fun c => matchBracket c set) next caps s
      (if atFrontier src s set then next caps s else (none, caps)) := by
  split
  · next here =>
      refine .only (frontier_iff.2 ⟨rfl, rfl, here⟩) (fun caps'' s'' step => ?_) rfl restores
      obtain ⟨rfl, rfl, -⟩ := frontier_iff.1 step
      exact ⟨rfl, rfl⟩
  · next elsewhere =>
      refine .none fun caps' s' step => ?_
      obtain ⟨-, -, both⟩ := frontier_iff.1 step
      exact elsewhere both

theorem atEnd_explores (caps : List Capture) (s : Nat) :
    Explores src 0 .atEnd (fun caps s => (some s, caps)) caps s
      (if s = src.length then some s else none, caps) := by
  split
  · next here =>
      subst here
      refine .only .atEnd (fun caps'' s'' step => ?_) rfl nofun
      cases step
      exact ⟨rfl, rfl⟩
  · next elsewhere =>
      refine .none fun caps' s' step => ?_
      cases step
      exact elsewhere rfl

theorem back_explores (caps : List Capture) (s : Nat) (d : UInt8)
    (restores : ∀ ns, (next caps ns).1 = none → (next caps ns).2 = caps) :
    Explores src 0 (.back (d - byteOf '1').toNat) next caps s
      (match matchCapture src caps s d with
      | none => (none, caps)
      | some ns => next caps ns) := by
  split
  · next missed =>
      refine .none fun caps' s' step => ?_
      obtain rfl := back_keeps step
      rw [matchCapture_iff.2 step] at missed
      cases missed
  · next ns found =>
      have step := matchCapture_iff.1 found
      exact .only step (fun caps'' s'' => back_alone step) rfl (restores ns)

/-! ### Repetition -/

/-- How many elements the item passes from a place on. -/
abbrev longest (src : Bytes) (item : Bytes) (s : Nat) : Nat :=
  ((src.drop s).takeWhile (itemTest item)).length

theorem singleMatch_iff {item : Bytes} :
    singleMatch src s item = true ↔ 1 ≤ longest src item s := by
  rw [longest, ← run_iff, singleMatch]
  constructor
  · intro matched i below
    obtain rfl : i = 0 := by omega
    split at matched
    · cases matched
    · next c here => exact ⟨c, here, matched⟩
  · intro run
    obtain ⟨c, here, passes⟩ := run 0 Nat.one_pos
    rw [Nat.add_zero] at here
    rw [here]
    exact passes

theorem backOff_tries (restores : Restores go) (s : Nat) (ep : Bytes) (k : Nat)
    (caps : List Capture) :
    Tries (· ≤ k) (fun n => go caps (s + n) ep) caps (backOff go s ep k caps) := by
  induction k with
  | zero =>
      rw [backOff]
      exact (Tries.one 0 (restores caps s ep)).same fun n => Nat.le_zero.symm
  | succ k ih =>
      have left := restores caps (s + (k + 1)) ep
      refine (ih.first (k + 1) ?_ ?_).same fun n => by omega
      all_goals
        intro tried
        rw [backOff]
        split
        all_goals simp_all

theorem extend_tries (restores : Restores go) (item ep rest : Bytes) (caps : List Capture)
    (s : Nat) :
    Tries (· ≤ (rest.takeWhile (itemTest item)).length) (fun n => go caps (s + n) ep) caps
      (extend go item ep rest caps s) := by
  induction rest generalizing s with
  | nil =>
      rw [extend]
      exact (Tries.one 0 (restores caps s ep)).same fun n => Nat.le_zero.symm
  | cons c rest ih =>
      have left := restores caps s ep
      cases passes : itemTest item c with
      | true =>
          have further : Tries (· ≤ (rest.takeWhile (itemTest item)).length)
              (fun n => go caps (s + (n + 1)) ep) caps (extend go item ep rest caps (s + 1)) := by
            simpa only [Nat.add_assoc, Nat.add_comm 1] using ih (s + 1)
          refine (further.shift.first 0 ?_ ?_).same fun n => ?_
          · intro tried
            rw [extend]
            split <;> simp_all
          · intro tried
            rw [extend]
            split <;> simp_all
          · rw [List.takeWhile_cons, if_pos passes, List.length_cons]
            constructor
            · rintro (rfl | ⟨m, rfl, short⟩)
              all_goals omega
            · intro short
              cases n with
              | zero => exact .inl rfl
              | succ m => exact .inr ⟨m, rfl, by omega⟩
      | false =>
          refine (Tries.nothing.first 0 ?_ ?_).same fun n => ?_
          · intro tried
            rw [extend]
            split <;> simp_all
          · intro tried
            rw [extend]
            split <;> simp_all
          · rw [List.takeWhile_cons, if_neg (by simp [passes])]
            simp

theorem longest_succ {item : Bytes} (matched : singleMatch src s item = true) :
    longest src item s = longest src item (s + 1) + 1 := by
  have one := singleMatch_iff.1 matched
  cases ahead : src.drop s with
  | nil =>
      rw [longest, ahead] at one
      cases one
  | cons c rest =>
      rw [longest, longest, (drop_eq_cons_iff.1 ahead).2, ahead, List.takeWhile_cons]
      split
      · rw [List.length_cons]
      · next fails =>
          rw [longest, ahead, List.takeWhile_cons, if_neg fails] at one
          cases one

theorem once_tries (restores : Restores go) (caps : List Capture) (s : Nat) (item ep : Bytes) :
    Tries (fun n => Rep.once.Allows n ∧ n ≤ longest src item s) (fun n => go caps (s + n) ep) caps
      (if singleMatch src s item then go caps (s + 1) ep else (none, caps)) := by
  split
  · next here =>
      refine (Tries.one 1 (restores caps (s + 1) ep)).same fun n => ?_
      have some := singleMatch_iff.1 here
      constructor
      · rintro rfl
        exact ⟨rfl, some⟩
      · rintro ⟨one, -⟩
        exact one
  · next missed =>
      rw [singleMatch_iff] at missed
      refine Tries.nothing.same fun n => ⟨False.elim, ?_⟩
      rintro ⟨rfl, some⟩
      exact missed some

theorem optional_tries (restores : Restores go) (caps : List Capture) (s : Nat) (item ep : Bytes) :
    Tries (fun n => Rep.optional.Allows n ∧ n ≤ longest src item s)
      (fun n => go caps (s + n) ep) caps
      (if singleMatch src s item then
        match go caps (s + 1) ep with
        | (some e, caps) => (some e, caps)
        | (none, caps) => go caps s ep
      else go caps s ep) := by
  have zero : Tries (· = 0) (fun n => go caps (s + n) ep) caps (go caps s ep) :=
    .one 0 (restores caps s ep)
  split
  · next here =>
      have some := singleMatch_iff.1 here
      have left := restores caps (s + 1) ep
      refine (zero.first 1 ?_ ?_).same fun n => ?_
      · intro tried
        split <;> simp_all
      · intro tried
        split <;> simp_all
      · simp only [Rep.Allows]
        omega
  · next missed =>
      rw [singleMatch_iff] at missed
      refine zero.same fun n => ?_
      simp only [Rep.Allows]
      omega

theorem maxExpand_tries (restores : Restores go) (caps : List Capture) (s : Nat)
    (item ep : Bytes) :
    Tries (· ≤ longest src item s) (fun n => go caps (s + n) ep) caps
      (maxExpand go src caps s item ep) :=
  backOff_tries restores s ep _ caps

theorem atLeastOnce_tries (restores : Restores go) (caps : List Capture) (s : Nat)
    (item ep : Bytes) :
    Tries (fun n => Rep.atLeastOnce.Allows n ∧ n ≤ longest src item s)
      (fun n => go caps (s + n) ep) caps
      (if singleMatch src s item then maxExpand go src caps (s + 1) item ep else (none, caps)) := by
  split
  · next here =>
      have further : Tries (· ≤ longest src item (s + 1)) (fun n => go caps (s + (n + 1)) ep) caps
          (maxExpand go src caps (s + 1) item ep) := by
        simpa only [Nat.add_assoc, Nat.add_comm 1] using
          maxExpand_tries restores caps (s + 1) item ep
      refine further.shift.same fun n => ?_
      rw [longest_succ here]
      constructor
      · rintro ⟨m, rfl, short⟩
        exact ⟨Nat.le_add_left 1 m, Nat.succ_le_succ short⟩
      · rintro ⟨some, short⟩
        exact ⟨n - 1, (Nat.sub_add_cancel some).symm, Nat.sub_le_of_le_add short⟩
  · next missed =>
      rw [singleMatch_iff] at missed
      refine Tries.nothing.same fun n => ⟨False.elim, ?_⟩
      rintro ⟨some, short⟩
      exact missed (some.trans short)

theorem minExpand_tries (restores : Restores go) (caps : List Capture) (s : Nat)
    (item ep : Bytes) :
    Tries (· ≤ longest src item s) (fun n => go caps (s + n) ep) caps
      (minExpand go src caps s item ep) :=
  extend_tries restores item ep (src.drop s) caps s

theorem defaultMatch_explores (restores : Restores go) {rest : Bytes} {item : Item UInt8}
    (parsed : parseSingle p = some (item, rest)) (caps : List Capture) (s : Nat) :
    Explores src 0 item (go · · rest) caps s (defaultMatch go src caps s p) := by
  rw [parseSingle] at parsed
  rw [defaultMatch]
  cases ends : classEnd p with
  | none =>
      rw [ends] at parsed
      cases parsed
  | some ep =>
      rw [ends] at parsed
      simp only at parsed ⊢
      generalize upTo p ep = bytes at parsed ⊢
      cases ep with
      | nil =>
          cases parsed
          exact .single (once_tries restores caps s bytes [])
      | cons q ep =>
          simp only at parsed ⊢
          split at parsed
          · next optional =>
              cases parsed
              rw [if_pos optional]
              exact .single (optional_tries restores caps s bytes rest)
          rw [if_neg ‹_›]
          split at parsed
          · next atLeastOnce =>
              cases parsed
              rw [if_pos atLeastOnce]
              exact .single (atLeastOnce_tries restores caps s bytes rest)
          rw [if_neg ‹_›]
          split at parsed
          · next many =>
              cases parsed
              rw [if_pos many]
              exact .single ((maxExpand_tries restores caps s bytes rest).same fun n => by
                simp only [Rep.Allows, true_and])
          rw [if_neg ‹_›]
          split at parsed
          · next few =>
              cases parsed
              rw [if_pos few]
              exact .single ((minExpand_tries restores caps s bytes rest).same fun n => by
                simp only [Rep.Allows, true_and])
          rw [if_neg ‹_›]
          cases parsed
          exact .single (once_tries restores caps s bytes (q :: ep))

theorem defaultMatch_malformed (malformed : parseSingle p = none) (caps : List Capture) (s : Nat) :
    defaultMatch go src caps s p = (none, caps) := by
  rw [parseSingle] at malformed
  rw [defaultMatch]
  cases ends : classEnd p with
  | none => rfl
  | some ep =>
      rw [ends] at malformed
      simp only at malformed
      split at malformed
      · cases malformed
      · repeat' split at malformed
        all_goals cases malformed

end Ways

/-! ### The recursion -/

section Recursion

variable {go : List Capture → Nat → Bytes → Attempt} {src : Bytes}

/-- What the matcher owes at a depth: everything about a pattern that is shorter than the depth. -/
abbrev Owes (src : Bytes) (depth : Nat) (caps : List Capture) (s : Nat) (p : Bytes)
    (attempt : Attempt) : Prop :=
  Answers src 0 (Parses p) (p.length < depth) caps s attempt

variable {depth : Nat} {attempt : Attempt} {c : UInt8} {caps : List Capture} {item : Item UInt8}
  {p : Bytes}

theorem restores_of_owes (owes : ∀ caps s p, Owes src depth caps s p (go caps s p)) :
    Restores go :=
  fun caps s p => (owes caps s p).restores

/-- One item explored, and the rest of the pattern at the next depth. -/
theorem owes_of_explores (owes : ∀ caps s p, Owes src depth caps s p (go caps s p)) {rest : Bytes}
    (parsed : parseItem (c :: p) = some (item, rest)) (shorter : rest.length ≤ p.length) {s : Nat}
    (explores : Explores src 0 item (go · · rest) caps s attempt) :
    Owes src (depth + 1) caps s (c :: p) attempt :=
  explores.answers (fun caps' s' => owes caps' s' rest) (parses_cons parsed) fun fits => by
    rw [List.length_cons] at fits
    omega

theorem defaultMatch_owes (owes : ∀ caps s p, Owes src depth caps s p (go caps s p))
    (single : parseItem (c :: p) = parseSingle (c :: p)) (caps : List Capture) (s : Nat) :
    Owes src (depth + 1) caps s (c :: p) (defaultMatch go src caps s (c :: p)) := by
  cases parsed : parseSingle (c :: p) with
  | none =>
      rw [defaultMatch_malformed parsed]
      exact .malformed (not_parses (single.trans parsed))
  | some spelled =>
      obtain ⟨item, rest⟩ := spelled
      have shorter := parseSingle_length parsed
      rw [List.length_cons] at shorter
      exact owes_of_explores owes (single.trans parsed) (by omega)
        (defaultMatch_explores (restores_of_owes owes) parsed caps s)

/-- An item passed without a deeper call: the loop goes on with the pattern behind it. -/
theorem owes_of_step {fuel : Nat} {rest : Bytes}
    (owes : ∀ caps s, Owes src (depth + 1) caps s rest (doMatchInner go src fuel caps s rest))
    (parsed : parseItem (c :: p) = some (item, rest)) (shorter : rest.length ≤ p.length) {s : Nat}
    (explores : Explores src 0 item (doMatchInner go src fuel · · rest) caps s attempt) :
    Owes src (depth + 1) caps s (c :: p) attempt :=
  explores.answers owes (parses_cons parsed) fun fits => by
    rw [List.length_cons] at fits
    omega

theorem matchBalance_owes (owes : ∀ caps s p, Owes src depth caps s p (go caps s p)) {d : UInt8}
    (escape : c = escByte) (balance : d = byteOf 'b') (caps : List Capture) (s : Nat) :
    Owes src (depth + 1) caps s (c :: d :: p) (matchBalance go src caps s p) := by
  subst escape balance
  match p with
  | [] => exact .malformed (not_parses rfl)
  | [_] => exact .malformed (not_parses rfl)
  | b :: e :: p =>
      exact owes_of_explores owes (show parseItem _ = some (.balance b e, p) from rfl)
        (by simp only [List.length_cons]; omega)
        (matchBalance_explores (restores_of_owes owes) caps s b e p)

theorem doMatchInner_owes (owes : ∀ caps s p, Owes src depth caps s p (go caps s p)) (fuel : Nat)
    (caps : List Capture) (s : Nat) (p : Bytes) (enough : p.length ≤ fuel) :
    Owes src (depth + 1) caps s p (doMatchInner go src fuel caps s p) := by
  have restores := restores_of_owes owes
  induction fuel generalizing caps s p with
  | zero =>
      obtain rfl := List.eq_nil_of_length_eq_zero (Nat.le_zero.1 enough)
      exact .empty fun items => parses_nil
  | succ fuel ih =>
      cases p with
      | nil => exact .empty fun items => parses_nil
      | cons c rest =>
          simp only [doMatchInner]
          split
          · next opens =>
              split
              · next position =>
                  exact owes_of_explores owes
                    (show parseItem (c :: rest) = some (.positionCapture, rest.drop 1) by
                      simp only [parseItem, if_pos opens, if_pos position])
                    (by simp) (positionCapture_explores restores caps s _)
              · next capture =>
                  exact owes_of_explores owes
                    (show parseItem (c :: rest) = some (.openCapture, rest) by
                      simp only [parseItem, if_pos opens, if_neg capture])
                    le_rfl (startCapture_explores restores caps s _)
          rename_i opens
          split
          · next closes =>
              exact owes_of_explores owes
                (show parseItem (c :: rest) = some (.closeCapture, rest) by
                  simp only [parseItem, if_neg opens, if_pos closes])
                le_rfl (endCapture_explores restores caps s _)
          rename_i closes
          split
          · next atEnd =>
              have parsed : parseItem (c :: rest) = some (.atEnd, []) := by
                simp only [parseItem, if_neg opens, if_neg closes, if_pos atEnd]
              exact (atEnd_explores caps s).answers (fun caps' s' => .empty fun items => parses_nil)
                (parses_cons parsed) id
          rename_i atEnd
          split
          · next escape =>
              cases rest with
              | nil =>
                  subst escape
                  exact defaultMatch_owes owes rfl caps s
              | cons d rest =>
                  simp only
                  split
                  · next balance =>
                      exact matchBalance_owes owes escape balance caps s
                  rename_i balance
                  have inner : fuel ≥ (d :: rest).length := Nat.le_of_succ_le_succ enough
                  split
                  · next frontier =>
                      split
                      · next set =>
                          have item : parseItem (c :: d :: rest) = (classEnd rest).map fun ep =>
                              (.frontier fun c => matchBracket c (upTo rest ep), ep) := by
                            simp only [parseItem, if_neg opens, if_neg closes, if_neg atEnd,
                              if_pos escape, if_neg balance, if_pos frontier, if_pos set]
                          split
                          · next malformed =>
                              refine .malformed (not_parses (item.trans ?_))
                              rw [malformed]
                              rfl
                          · next ep ends =>
                              have shorter := classEnd_length ends
                              have parsed := item.trans (congrArg _ ends)
                              rw [List.length_cons] at inner
                              refine owes_of_step (fun caps s => ih caps s ep (by omega)) parsed
                                (by rw [List.length_cons]; omega) ?_
                              exact frontier_explores _ caps s (ih caps s ep (by omega)).restores
                      · next missing =>
                          refine .malformed (not_parses ?_)
                          simp only [parseItem, if_neg opens, if_neg closes, if_neg atEnd,
                            if_pos escape, if_neg balance, if_pos frontier, if_neg missing]
                  rename_i frontier
                  split
                  · next digit =>
                      have parsed : parseItem (c :: d :: rest) =
                          some (.back (d - byteOf '1').toNat, rest) := by
                        simp only [parseItem, if_neg opens, if_neg closes, if_neg atEnd,
                          if_pos escape, if_neg balance, if_neg frontier, if_pos digit]
                      rw [List.length_cons] at inner
                      refine owes_of_step (fun caps s => ih caps s rest (by omega)) parsed
                        (by rw [List.length_cons]; omega) ?_
                      exact back_explores caps s d fun ns => (ih caps ns rest (by omega)).restores
                  · next letter =>
                      exact defaultMatch_owes owes
                        (by simp only [parseItem, if_neg opens, if_neg closes, if_neg atEnd,
                          if_pos escape, if_neg balance, if_neg frontier, if_neg letter])
                        caps s
          · next other =>
              exact defaultMatch_owes owes
                (by simp only [parseItem, if_neg opens, if_neg closes, if_neg atEnd, if_neg other])
                caps s

end Recursion

theorem doMatch_owes (src : Bytes) (depth : Nat) (caps : List Capture) (s : Nat) (p : Bytes) :
    Owes src depth caps s p (doMatch src depth caps s p) := by
  induction depth generalizing caps s p with
  | zero =>
      refine ⟨?_, ?_, fun _ => rfl⟩
      · intro e reached
        cases reached
      · intro fits
        cases fits
  | succ depth ih => exact doMatchInner_owes ih p.length caps s p le_rfl

/-- The search finds nothing that is not a match, and finds one wherever there is one, as long as
the pattern is shorter than the depth it may recurse to. -/
theorem luaMatch_finds (text pattern : Bytes) :
    (luaMatch text pattern = true → Occurs text pattern) ∧
      ((anchored pattern).2.length < maxDepth → Occurs text pattern →
        luaMatch text pattern = true) := by
  have owes := doMatch_owes text maxDepth []
  constructor
  · intro matched
    obtain ⟨s, starts, found⟩ := List.any_eq_true.1 matched
    obtain ⟨e, reached⟩ := Option.isSome_iff_exists.1 found
    obtain ⟨items, spelled, led⟩ := (owes s _).sound e reached
    have place : s ≤ text.length ∧ ((anchored pattern).1 = true → s = 0) := by
      split at starts
      · obtain rfl := List.mem_singleton.1 starts
        exact ⟨Nat.zero_le _, fun _ => rfl⟩
      · next free =>
          exact ⟨Nat.le_of_lt_succ (List.mem_range.1 starts), fun anchor => absurd anchor free⟩
    exact ⟨items, s, e, spelled, place.1, place.2, led⟩
  · rintro short ⟨items, s, e, spelled, inside, start, led⟩
    refine List.any_eq_true.2 ⟨s, ?_, (owes s _).complete short items e spelled led⟩
    split
    · next anchor => rw [start anchor, List.mem_singleton]
    · exact List.mem_range.2 (Nat.lt_succ_of_le inside)

/-- A word, and the same word once more: `^(%w+)=%1$`. -/
theorem luaMatch_finds_again :
    luaMatch (['a', 'b', '=', 'a', 'b'].map byteOf)
      (['^', '(', '%', 'w', '+', ')', '=', '%', '1', '$'].map byteOf) = true := by
  refine (luaMatch_finds _ _).2 (by decide)
    ⟨[.openCapture, .single (itemTest [escByte, byteOf 'w']) .atLeastOnce, .closeCapture,
      .single (itemTest [byteOf '=']) .once, .back 0, .atEnd], 0, 5, ?_, by decide, fun _ => rfl, ?_⟩
  · exact .cons rfl (.cons rfl (.cons rfl (.cons rfl (.cons rfl (.cons rfl .nil)))))
  · have word : Run (['a', 'b', '=', 'a', 'b'].map byteOf) (itemTest [escByte, byteOf 'w']) 0 2 :=
      run_iff.2 (by decide)
    have equals : Run (['a', 'b', '=', 'a', 'b'].map byteOf) (itemTest [byteOf '=']) 2 1 :=
      run_iff.2 (by decide)
    exact .cons .openCapture (.cons (.single (by decide : 1 ≤ 2) word)
      (.cons (@Step.closeCapture _ _ _ _ [] [] 0 2 (by simp))
        (.cons (.single rfl equals) (.cons (.back rfl (by decide) rfl) (.cons .atEnd .nil)))))

/-! ### Too deep -/

theorem letter_plain (letter : isAsciiAlphabetic c = true) :
    c ≠ byteOf '(' ∧ c ≠ byteOf ')' ∧ c ≠ byteOf '$' ∧ c ≠ escByte ∧ c ≠ byteOf '[' ∧ c ≠ byteOf '?' ∧
      c ≠ byteOf '+' ∧ c ≠ byteOf '*' ∧ c ≠ byteOf '-' ∧ c ≠ byteOf '^' := by
  refine ⟨?_, ?_, ?_, ?_, ?_, ?_, ?_, ?_, ?_, ?_⟩
  all_goals
    rintro rfl
    revert letter
    decide

theorem defaultMatch_plain {go : List Capture → Nat → Bytes → Attempt} {src : Bytes} {s : Nat}
    (plain : Plain (c :: p)) (stuck : (go caps (s + 1) p).1 = none) :
    (defaultMatch go src caps s (c :: p)).1 = none := by
  have single := letter_plain (plain c List.mem_cons_self)
  have ends : classEnd (c :: p) = some p := by
    simp only [classEnd, if_neg single.2.2.2.1, if_neg single.2.2.2.2.1]
  rw [defaultMatch, ends]
  cases p with
  | nil =>
      simp only
      split
      · exact stuck
      · rfl
  | cons q p =>
      have next := letter_plain (plain q (by simp))
      simp only [if_neg next.2.2.2.2.2.1, if_neg next.2.2.2.2.2.2.1, if_neg next.2.2.2.2.2.2.2.1,
        if_neg next.2.2.2.2.2.2.2.2.1]
      split
      · exact stuck
      · rfl

theorem doMatch_too_deep (src : Bytes) {depth : Nat} {s : Nat} (plain : Plain p)
    (deep : depth ≤ p.length) : (doMatch src depth caps s p).1 = none := by
  induction depth generalizing s p with
  | zero => rfl
  | succ depth ih =>
      cases p with
      | nil => cases deep
      | cons c p =>
          have single := letter_plain (plain c List.mem_cons_self)
          have behind : Plain p := fun d among => plain d (List.mem_cons_of_mem c among)
          simp only [doMatch, List.length_cons, doMatchInner, if_neg single.1, if_neg single.2.1,
            if_neg single.2.2.2.1, single.2.2.1, false_and, if_false]
          exact defaultMatch_plain plain (ih behind (Nat.le_of_succ_le_succ deep))

/-- One call for each letter: a word as long as the depth is found nowhere, not in itself either. -/
theorem luaMatch_too_deep (text pattern : Bytes) (plain : Plain pattern)
    (deep : maxDepth ≤ pattern.length) : luaMatch text pattern = false := by
  have whole : anchored pattern = (false, pattern) := by
    cases pattern with
    | nil => rfl
    | cons c p =>
        have single := letter_plain (plain c List.mem_cons_self)
        rw [anchored, if_neg]
        simpa using single.2.2.2.2.2.2.2.2.2
  rw [luaMatch, whole]
  refine List.any_eq_false.2 fun s _ => ?_
  rw [doMatch_too_deep text plain deep]
  exact Bool.false_ne_true

theorem luaMatch_too_deep_itself :
    luaMatch (List.replicate 200 (byteOf 'a')) (List.replicate 200 (byteOf 'a')) = false :=
  luaMatch_too_deep _ _ (fun _ among => List.eq_of_mem_replicate among ▸ rfl)
    (List.length_replicate ▸ le_rfl)

end Bemtvi.Treesitter
