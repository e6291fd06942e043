/-
Module: Bemtvi.Server.KeymapLaws
Purpose: What the matcher does with the keys it is fed: with no recursive mapping every key comes
  out once and in order, and with any mappings a call ends within a bound.
Trusted boundary: none
Main exports: Spent, Feeds, feedKey_feeds, flushLoop_spends, matcher_is_bounded,
  no_constant_factor, Exact, feedKey_exact, matcher_keeps_keys
-/
import Bemtvi.Server.Keymap

namespace Bemtvi.Server.Keymap

open Bemtvi.Input
open Bemtvi.Trie (Node assign lookup_assign)
open Bemtvi.Run (run run_nil run_cons)

/-! ### Walking a trie -/

theorem classify_complete {trie : Trie} {keys : List Key} {mapping : Mapping}
    (complete : classify trie keys = .complete mapping) : trie.valueAt keys = some mapping := by
  rw [classify] at complete
  rw [Node.valueAt]
  cases walked : trie.descend keys with
  | none => simp [walked] at complete
  | some node =>
      simp only [walked] at complete
      split at complete
      · rename_i found _
        cases complete
        exact found
      · rename_i found _
        split at complete
        · cases complete
          exact found
        · cases complete
      · cases complete
      · cases complete

theorem classify_walked {trie : Trie} {keys : List Key}
    (held : classify trie keys = .livePrefix) : (trie.descend keys).isSome := by
  rw [classify] at held
  cases walked : trie.descend keys with
  | none => simp [walked] at held
  | some node => rfl

theorem longestFrom_some {node : Trie} {best : Option (Mapping × Nat)} {read : Nat}
    {keys : List Key} {found : Mapping × Nat}
    (longest : longestFrom node best read keys = some found) :
    best = some found ∨ ∃ used, 0 < used ∧ used ≤ keys.length ∧ found.2 = read + used ∧
      node.valueAt (keys.take used) = some found.1 := by
  induction keys generalizing node best read with
  | nil => exact Or.inl longest
  | cons key keys ih =>
      rw [longestFrom] at longest
      cases under : node.child key with
      | none =>
          rw [under] at longest
          exact Or.inl longest
      | some next =>
          rw [under] at longest
          rcases ih longest with best_here | ⟨used, some_key, inside, counted, value⟩
          · cases here : next.value with
            | none =>
                rw [here] at best_here
                exact Or.inl best_here
            | some mapping =>
                rw [here] at best_here
                cases best_here
                refine Or.inr ⟨1, Nat.one_pos, by simp, rfl, ?_⟩
                simp [Node.valueAt, Node.descend_cons, under, here]
          · refine Or.inr ⟨used + 1, Nat.succ_pos used, by simpa using inside, ?_, ?_⟩
            · rw [counted]
              omega
            · rw [List.take_succ_cons, Node.valueAt, Node.descend_cons, under]
              exact value

/-- The longest complete mapping takes at least one key, and a path of the trie ends on it. -/
theorem longestComplete_some {trie : Trie} {keys : List Key} {mapping : Mapping} {used : Nat}
    (longest : longestComplete trie keys = some (mapping, used)) :
    0 < used ∧ used ≤ keys.length ∧ trie.valueAt (keys.take used) = some mapping := by
  rcases longestFrom_some longest with nothing | ⟨used', some_key, inside, counted, value⟩
  · cases nothing
  · obtain rfl : used = used' := by simpa using counted
    exact ⟨some_key, inside, value⟩

/-- A word that goes on to a mapping, and completes none that fires at once, is held. -/
theorem classify_live {trie : Trie} {keys : List Key} (more : List Key) (some_key : more ≠ [])
    (longer : (trie.valueAt (keys ++ more)).isSome)
    (waits : ∀ mapping, trie.valueAt keys = some mapping → mapping.nowait = false) :
    classify trie keys = .livePrefix := by
  rw [Node.valueAt, Node.descend_append] at longer
  rw [classify]
  cases walked : trie.descend keys with
  | none => simp [walked] at longer
  | some node =>
      have goes_on : node.children.isEmpty = false := by
        rw [List.isEmpty_eq_false_iff]
        rw [walked, Option.bind_some] at longer
        cases further : node.descend more with
        | none => simp [further] at longer
        | some next => exact Node.children_ne_nil further some_key
      cases value : node.value with
      | none => simp [value, goes_on]
      | some mapping =>
          have waiting := waits mapping (by simp [Node.valueAt, walked, value])
          simp [value, goes_on, waiting]

theorem classify_broken {trie : Trie} {keys : List Key} (stuck : trie.descend keys = none) :
    classify trie keys = .none := by
  simp [classify, stuck]

/-- Where nothing longer is complete, the best so far stays. -/
theorem longestFrom_best {node : Trie} {best : Option (Mapping × Nat)} {read : Nat}
    {keys : List Key}
    (nothing : ∀ used, 0 < used → used ≤ keys.length → node.valueAt (keys.take used) = none) :
    longestFrom node best read keys = best := by
  induction keys generalizing node read with
  | nil => rfl
  | cons key keys ih =>
      rw [longestFrom]
      cases under : node.child key with
      | none => rfl
      | some next =>
          have first : next.value = none := by
            simpa [Node.valueAt, Node.descend_cons, under] using nothing 1 Nat.one_pos (by simp)
          simp only [first]
          refine ih fun used some_key inside => ?_
          have further := nothing (used + 1) (Nat.succ_pos used) (by simpa using inside)
          rw [List.take_succ_cons, Node.valueAt, Node.descend_cons, under] at further
          exact further

/-- What every mapping of a bucket's trie satisfies. -/
def Holding (good : Mapping → Prop) (tries : List (Char × Trie)) : Prop :=
  ∀ bucket trie, tries.lookup bucket = some trie →
    ∀ word mapping, trie.valueAt word = some mapping → good mapping

/-- No path of a trie is longer than this. -/
def Within (longest : Nat) (tries : List (Char × Trie)) : Prop :=
  ∀ bucket trie, tries.lookup bucket = some trie →
    ∀ word, (trie.descend word).isSome → word.length ≤ longest

theorem Holding.insertInto {good : Mapping → Prop} {tries : List (Char × Trie)}
    (before : Holding good tries) {insertion : Insertion} (fits : good insertion.mapping) :
    Holding good (insertInto tries insertion) := by
  intro bucket trie there word mapping value
  rw [Keymap.insertInto, lookup_assign] at there
  split at there
  · cases there
    rw [Node.valueAt_insert] at value
    split at value
    · cases value
      exact fits
    · cases old : tries.lookup insertion.bucket with
      | none =>
          rw [old] at value
          cases word with
          | nil => cases value
          | cons key word => cases value
      | some trie =>
          rw [old] at value
          exact before _ trie old word mapping value
  · exact before bucket trie there word mapping value

theorem Within.insertInto {longest : Nat} {tries : List (Char × Trie)}
    (before : Within longest tries) {insertion : Insertion}
    (fits : insertion.lhs.length ≤ longest) : Within longest (insertInto tries insertion) := by
  intro bucket trie there word walked
  rw [Keymap.insertInto, lookup_assign] at there
  split at there
  · cases there
    rcases Node.descend_insert _ _ _ _ walked with was | front
    · cases old : tries.lookup insertion.bucket with
      | none =>
          rw [old] at was
          cases word with
          | nil => simp
          | cons key word => cases was
      | some trie =>
          rw [old] at was
          exact before _ trie old word was
    · exact le_trans front.length_le fits
  · exact before bucket trie there word walked

theorem compile_holding {good : Mapping → Prop} {insertions : List Insertion}
    (fits : ∀ insertion ∈ insertions, good insertion.mapping) :
    Holding good (compile insertions) := by
  refine List.foldlRecOn insertions insertInto ?_ ?_
  · intro bucket trie there
    cases there
  · intro tries before insertion mem
    exact before.insertInto (fits insertion mem)

theorem compile_within {longest : Nat} {insertions : List Insertion}
    (fits : ∀ insertion ∈ insertions, insertion.lhs.length ≤ longest) :
    Within longest (compile insertions) := by
  refine List.foldlRecOn insertions insertInto ?_ ?_
  · intro bucket trie there
    cases there
  · intro tries before insertion mem
    exact before.insertInto (fits insertion mem)

/-! ### What a call can cost -/

/-- How many keys a mapping puts back into the matcher. -/
def Mapping.refeeds (mapping : Mapping) : Nat :=
  match mapping.rhs with
  | .keys keys false => keys.length
  | _ => 0

/-- What the buffer and the budget may still cost: every key that is fed costs at most `depth + 1`
calls, the keys a withheld one is re-fed for included. -/
def weight (depth refed : Nat) (work : Work) : Nat :=
  (depth + 1) * (work.remapBudget * refed) + depth * work.pending.length

/-- The work behind `keys` keys, paid for by what they and the work before may cost. -/
structure Spent (depth refed : Nat) (start : Work) (keys : Nat) (final : Work) : Prop where
  short : final.pending.length ≤ depth
  grows : start.fed ≤ final.fed
  paid : final.fed + weight depth refed final ≤
    start.fed + (depth + 1) * keys + weight depth refed start

/-- With fuel for all it may cost, a key is fed. -/
def Feeds (depth refed fuel : Nat) (feed : Work → Key → Option Work) : Prop :=
  ∀ work key, work.pending.length ≤ depth → depth + 1 + weight depth refed work ≤ fuel →
    ∃ after, feed work key = some after ∧ Spent depth refed work 1 after

section Cost

variable {depth refed fuel : Nat} {feed : Work → Key → Option Work}

theorem Spent.refl {work : Work} (short : work.pending.length ≤ depth) :
    Spent depth refed work 0 work where
  short := short
  grows := le_refl _
  paid := by simp

theorem Feeds.run (feeds : Feeds depth refed fuel feed) (keys : List Key) (work : Work)
    (short : work.pending.length ≤ depth)
    (enough : (depth + 1) * keys.length + weight depth refed work ≤ fuel) :
    ∃ after, Run.run feed work keys = some after ∧
      Spent depth refed work keys.length after := by
  induction keys generalizing work with
  | nil => exact ⟨work, rfl, Spent.refl short⟩
  | cons key keys ih =>
      rw [List.length_cons, Nat.mul_succ] at enough
      obtain ⟨next, fed, spent⟩ := feeds work key short (by omega)
      have paid := spent.paid
      have grows := spent.grows
      obtain ⟨after, rest, spent'⟩ := ih next spent.short (by omega)
      refine ⟨after, run_cons.2 ⟨next, fed, rest⟩, spent'.short, ?_, ?_⟩
      · exact le_trans spent.grows spent'.grows
      · have paid' := spent'.paid
        rw [List.length_cons, Nat.mul_succ]
        omega

theorem Feeds.fire (feeds : Feeds depth refed fuel feed) {mapping : Mapping}
    (light : mapping.refeeds ≤ refed) (work : Work) (short : work.pending.length ≤ depth)
    (enough : weight depth refed work ≤ fuel) (lhs : List Key) :
    ∃ after, Keymap.fire feed work mapping lhs = some after ∧ Spent depth refed work 0 after := by
  have handed : ∀ step, Spent depth refed work 0 (work.push step) := fun step =>
    ⟨short, le_refl _, by simp [weight, Work.push]⟩
  rw [Keymap.fire]
  split
  · rename_i keys remapped
    split
    · rename_i budget
      -- one unit of the budget pays for the keys of the right-hand side
      have fewer : keys.length ≤ refed := by simpa [Mapping.refeeds, remapped] using light
      have unit : (depth + 1) * keys.length +
          weight depth refed { work with remapBudget := work.remapBudget - 1 } ≤
            weight depth refed work := by
        obtain ⟨left, same⟩ : ∃ left, work.remapBudget = left + 1 :=
          ⟨_, (Nat.succ_pred_eq_of_pos budget).symm⟩
        have bound := Nat.mul_le_mul_left (depth + 1) fewer
        have split : (depth + 1) * ((left + 1) * refed) =
            (depth + 1) * (left * refed) + (depth + 1) * refed := by ring
        simp only [weight, same, split, Nat.add_sub_cancel]
        omega
      obtain ⟨after, fed, spent⟩ := feeds.run keys
        { work with remapBudget := work.remapBudget - 1 } short (le_trans unit enough)
      refine ⟨after, fed, spent.short, spent.grows, ?_⟩
      have paid := spent.paid
      simp only [Nat.mul_zero]
      simp only at paid
      omega
    · exact ⟨_, rfl, handed _⟩
  · exact ⟨_, rfl, handed _⟩

theorem Feeds.resolveBuffered (feeds : Feeds depth refed fuel feed) {trie : Trie}
    (light : ∀ word mapping, trie.valueAt word = some mapping → mapping.refeeds ≤ refed)
    (work : Work) (emptied : work.pending = []) (buffered : List Key)
    (enough : (depth + 1) * (buffered.length - 1) + weight depth refed work ≤ fuel) :
    ∃ after raw, Keymap.resolveBuffered feed trie work buffered = some (after, raw) ∧
      Spent depth refed work (buffered.length - 1) after := by
  have short : work.pending.length ≤ depth := by simp [emptied]
  rw [Keymap.resolveBuffered]
  cases longest : longestComplete trie buffered with
  | none =>
      refine ⟨_, _, rfl, short, le_refl _, ?_⟩
      simp only [Work.replay, weight]
      omega
  | some found =>
      obtain ⟨mapping, used⟩ := found
      obtain ⟨some_key, -, value⟩ := longestComplete_some longest
      obtain ⟨fired, fires, spent⟩ := feeds.fire (light _ _ value) work short (by omega)
        (buffered.take used)
      have rest : (buffered.drop used).length ≤ buffered.length - 1 := by
        rw [List.length_drop]
        omega
      have cheaper := Nat.mul_le_mul_left (depth + 1) rest
      have paid := spent.paid
      have grows := spent.grows
      obtain ⟨after, refeeds, spent'⟩ := feeds.run (buffered.drop used) fired spent.short
        (by omega)
      refine ⟨after, none, by simp [fires, refeeds], spent'.short, ?_, ?_⟩
      · exact le_trans spent.grows spent'.grows
      · have paid' := spent'.paid
        omega

/-- With fuel for what it may cost, `feed_key` ends, and has cost no more. -/
theorem feedKey_feeds (commandStatus : Mode → List Key → CommandStatus)
    {tries : List (Char × Trie)} (scope : MatchScope) (within : Within depth tries)
    (light : Holding (fun mapping => mapping.refeeds ≤ refed) tries) (fuel : Nat) :
    Feeds depth refed fuel (feedKey commandStatus tries scope fuel) := by
  induction fuel with
  | zero =>
      intro work key short enough
      omega
  | succ fuel ih =>
      intro work key short enough
      rw [feedKey]
      have emptied : weight depth refed work =
          weight depth refed { work with fed := work.fed + 1, pending := [] } +
            depth * work.pending.length := by
        simp [weight]
      cases there : tries.lookup scope.bucket with
      | none =>
          refine ⟨_, rfl, by simp [Work.push, Work.replay], Nat.le_succ _, ?_⟩
          simp only [Work.push, Work.replay, weight, List.length_nil]
          omega
      | some trie =>
          dsimp only
          cases classified : classify trie (work.pending ++ [key]) with
          | livePrefix =>
              have fits := within _ trie there _ (classify_walked classified)
              refine ⟨_, rfl, fits, Nat.le_succ _, ?_⟩
              have one_more : depth * (work.pending ++ [key]).length =
                  depth * work.pending.length + depth := by
                rw [List.length_append, List.length_singleton, Nat.mul_succ]
              simp only [weight, one_more]
              omega
          | complete mapping =>
              obtain ⟨after, fires, spent⟩ := ih.fire
                (light _ trie there _ _ (classify_complete classified))
                { work with fed := work.fed + 1, pending := [] } (by simp)
                (by omega) (work.pending ++ [key])
              have paid := spent.paid
              have grows := spent.grows
              refine ⟨after, fires, spent.short, by simp only at grows; omega, ?_⟩
              simp only at paid
              omega
          | none =>
              dsimp only
              by_cases nothing : work.pending = []
              · rw [if_pos nothing]
                refine ⟨_, rfl, short, Nat.le_succ _, ?_⟩
                simp only [Work.push, weight]
                omega
              · rw [if_neg nothing]
                -- the broken buffer is at most `depth` keys, and re-feeding all but one of them
                -- and the key costs what it weighed
                obtain ⟨left, withheld⟩ : ∃ left, work.pending.length = left + 1 :=
                  ⟨_, (Nat.succ_pred_eq_of_pos (List.length_pos_of_ne_nil nothing)).symm⟩
                have one_less : (depth + 1) * (work.pending.length - 1) + depth =
                    depth * work.pending.length + left := by
                  rw [withheld, Nat.add_sub_cancel]
                  ring
                obtain ⟨resolved, raw, resolves, spent⟩ := ih.resolveBuffered
                  (light _ trie there) { work with fed := work.fed + 1, pending := [] } rfl
                  work.pending (by omega)
                rw [resolves]
                have paid := spent.paid
                have grows := spent.grows
                simp only at paid grows
                dsimp only
                split
                · refine ⟨_, rfl, spent.short, by simp only [Work.push]; omega, ?_⟩
                  have pushed : weight depth refed (resolved.push (.editor key)) =
                      weight depth refed resolved := rfl
                  rw [pushed]
                  simp only [Work.push]
                  omega
                · obtain ⟨after, fed, spent'⟩ := ih resolved key spent.short (by omega)
                  have paid' := spent'.paid
                  have grows' := spent'.grows
                  exact ⟨after, fed, spent'.short, by omega, by omega⟩

/-- A pass of `flush` over keys that are withheld costs less than what they weighed. -/
theorem flushPass_spends (commandStatus : Mode → List Key → CommandStatus)
    {tries : List (Char × Trie)} (scope : MatchScope) (within : Within depth tries)
    (light : Holding (fun mapping => mapping.refeeds ≤ refed) tries) {work : Work}
    (short : work.pending.length ≤ depth) (withheld : work.pending ≠ [])
    (enough : weight depth refed work ≤ fuel) :
    ∃ after, flushPass commandStatus tries scope fuel work = some after ∧
      after.pending.length ≤ depth ∧ work.fed ≤ after.fed ∧
      after.fed + weight depth refed after < work.fed + weight depth refed work := by
  have emptied : weight depth refed work =
      weight depth refed { work with pending := [] } + depth * work.pending.length := by
    simp [weight]
  obtain ⟨left, held⟩ : ∃ left, work.pending.length = left + 1 :=
    ⟨_, (Nat.succ_pred_eq_of_pos (List.length_pos_of_ne_nil withheld)).symm⟩
  have one_less : (depth + 1) * (work.pending.length - 1) + depth =
      depth * work.pending.length + left := by
    rw [held, Nat.add_sub_cancel]
    ring
  rw [flushPass]
  cases there : tries.lookup scope.bucket with
  | none =>
      refine ⟨_, rfl, by simp [Work.replay], le_refl _, ?_⟩
      have some_cost : 0 < depth * work.pending.length := Nat.mul_pos (by omega) (by omega)
      have replayed : weight depth refed (Work.replay { work with pending := [] } work.pending) =
          weight depth refed { work with pending := [] } := rfl
      rw [replayed]
      simp only [Work.replay]
      omega
  | some trie =>
      obtain ⟨after, raw, resolves, spent⟩ := (feedKey_feeds commandStatus scope within light
        fuel).resolveBuffered (light _ trie there) { work with pending := [] } rfl work.pending
        (by omega)
      have paid := spent.paid
      simp only at paid
      refine ⟨after, by simp [resolves], spent.short, spent.grows, ?_⟩
      omega

/-- `flush` ends, and every pass but the last leaves fewer keys withheld than it found. -/
theorem flushLoop_spends (commandStatus : Mode → List Key → CommandStatus)
    {tries : List (Char × Trie)} (scope : MatchScope) (within : Within depth tries)
    (light : Holding (fun mapping => mapping.refeeds ≤ refed) tries) {work : Work}
    (short : work.pending.length ≤ depth) (enough : weight depth refed work < fuel) :
    ∃ last passes, flushLoop commandStatus tries scope fuel work = some (last, passes) ∧
      last.fed ≤ work.fed + weight depth refed work ∧
      ∀ pass ∈ passes.dropLast, pass.2 < pass.1 := by
  induction fuel generalizing work with
  | zero => exact absurd enough (Nat.not_lt_zero _)
  | succ fuel ih =>
      rw [flushLoop]
      by_cases nothing : work.pending = []
      · rw [if_pos nothing]
        exact ⟨work, [], rfl, Nat.le_add_right _ _, by simp⟩
      · rw [if_neg nothing]
        obtain ⟨after, passed, fits, grows, paid⟩ := flushPass_spends commandStatus scope within
          light short nothing (Nat.le_of_lt_succ enough)
        rw [passed]
        dsimp only
        split
        · exact ⟨after, _, rfl, by omega, by simp⟩
        · rename_i shrinks
          obtain ⟨last, passes, rest, bound, shrink⟩ := ih fits (by omega)
          refine ⟨last, _, by rw [rest]; rfl, by omega, ?_⟩
          intro pass mem
          cases passes with
          | nil => cases mem
          | cons second passes =>
              rw [List.dropLast_cons_cons, List.mem_cons] at mem
              rcases mem with rfl | later
              · exact Nat.lt_of_not_le shrinks
              · exact shrink pass later

end Cost

/-! ### More fuel changes nothing -/

section Fuel

variable {less more : Work → Key → Option Work}

/-- What one gives, the other gives too. -/
def Extends (less more : Work → Key → Option Work) : Prop :=
  ∀ work key after, less work key = some after → more work key = some after

theorem Extends.run (extends_ : Extends less more) {keys : List Key} {work after : Work}
    (fed : Run.run less work keys = some after) : Run.run more work keys = some after := by
  induction keys generalizing work with
  | nil => exact fed
  | cons key keys ih =>
      obtain ⟨next, first, rest⟩ := run_cons.1 fed
      exact run_cons.2 ⟨next, extends_ work key next first, ih rest⟩

theorem Extends.fire (extends_ : Extends less more) {mapping : Mapping} {lhs : List Key}
    {work after : Work} (fires : Keymap.fire less work mapping lhs = some after) :
    Keymap.fire more work mapping lhs = some after := by
  rw [Keymap.fire] at fires ⊢
  split at fires
  · split at fires
    · rename_i budget
      simp only [budget, if_true]
      exact extends_.run fires
    · rename_i spent
      simp only [spent, if_false]
      exact fires
  · exact fires

theorem Extends.resolveBuffered (extends_ : Extends less more) {trie : Trie}
    {buffered : List Key} {work : Work} {result : Work × Option (List Key)}
    (resolves : Keymap.resolveBuffered less trie work buffered = some result) :
    Keymap.resolveBuffered more trie work buffered = some result := by
  rw [Keymap.resolveBuffered] at resolves ⊢
  split at resolves
  · rename_i mapping used longest
    cases fires : Keymap.fire less work mapping (buffered.take used) with
    | none =>
        rw [fires] at resolves
        cases resolves
    | some fired =>
        simp only [fires, Option.map_eq_some_iff] at resolves
        obtain ⟨after, refeeds, rfl⟩ := resolves
        simp [extends_.fire fires, extends_.run refeeds]
  · exact resolves

theorem feedKey_extends (commandStatus : Mode → List Key → CommandStatus)
    (tries : List (Char × Trie)) (scope : MatchScope) {fuel enough : Nat} (le : fuel ≤ enough) :
    Extends (feedKey commandStatus tries scope fuel)
      (feedKey commandStatus tries scope enough) := by
  induction fuel generalizing enough with
  | zero =>
      intro work key after fed
      cases fed
  | succ fuel ih =>
      obtain ⟨enough, rfl⟩ : ∃ next, enough = next + 1 := ⟨enough - 1, by omega⟩
      have deeper := ih (Nat.le_of_succ_le_succ le)
      intro work key after fed
      rw [feedKey] at fed ⊢
      cases there : tries.lookup scope.bucket with
      | none =>
          rw [there] at fed
          exact fed
      | some trie =>
          simp only [there] at fed ⊢
          cases classified : classify trie (work.pending ++ [key]) with
          | livePrefix =>
              simp only [classified] at fed ⊢
              exact fed
          | complete mapping =>
              simp only [classified] at fed ⊢
              exact deeper.fire fed
          | none =>
              simp only [classified] at fed ⊢
              split at fed
              · rename_i nothing
                rw [if_pos nothing]
                exact fed
              · rename_i withheld
                rw [if_neg withheld]
                split at fed
                · rename_i resolved raw resolves
                  rw [deeper.resolveBuffered resolves]
                  dsimp only
                  split at fed
                  · rename_i released
                    rw [if_pos released]
                    exact fed
                  · rename_i held
                    rw [if_neg held]
                    exact deeper _ _ _ fed
                · cases fed

theorem flushLoop_extends (commandStatus : Mode → List Key → CommandStatus)
    (tries : List (Char × Trie)) (scope : MatchScope) {fuel enough : Nat} (le : fuel ≤ enough)
    {work : Work} {result : Work × List (Nat × Nat)}
    (flushed : flushLoop commandStatus tries scope fuel work = some result) :
    flushLoop commandStatus tries scope enough work = some result := by
  induction fuel generalizing enough work result with
  | zero => cases flushed
  | succ fuel ih =>
      obtain ⟨enough, rfl⟩ : ∃ next, enough = next + 1 := ⟨enough - 1, by omega⟩
      have less := Nat.le_of_succ_le_succ le
      rw [flushLoop] at flushed ⊢
      split at flushed
      · rename_i nothing
        rw [if_pos nothing]
        exact flushed
      · rename_i withheld
        rw [if_neg withheld]
        have same : ∀ after, flushPass commandStatus tries scope fuel work = some after →
            flushPass commandStatus tries scope enough work = some after := by
          intro after passed
          rw [flushPass] at passed ⊢
          cases there : tries.lookup scope.bucket with
          | none =>
              rw [there] at passed
              exact passed
          | some trie =>
              simp only [there, Option.map_eq_some_iff] at passed ⊢
              obtain ⟨result, resolves, rfl⟩ := passed
              exact ⟨result, (feedKey_extends commandStatus tries scope less).resolveBuffered
                resolves, rfl⟩
        cases passed : flushPass commandStatus tries scope fuel work with
        | none =>
            rw [passed] at flushed
            cases flushed
        | some after =>
            simp only [passed, same after passed] at flushed ⊢
            split at flushed
            · rename_i stays
              rw [if_pos stays]
              exact flushed
            · rename_i shrinks
              rw [if_neg shrinks]
              simp only [Option.map_eq_some_iff] at flushed ⊢
              obtain ⟨rest, flushed, rfl⟩ := flushed
              exact ⟨rest, ih less flushed, rfl⟩

end Fuel

/-! ### The bound -/

/-- The largest of some lengths. -/
def longest (lengths : List Nat) : Nat := lengths.foldr max 0

theorem le_longest {lengths : List Nat} {length : Nat} (mem : length ∈ lengths) :
    length ≤ longest lengths :=
  List.le_max_of_le mem (le_refl length)

def longestLhs (insertions : List Insertion) : Nat :=
  longest (insertions.map fun insertion => insertion.lhs.length)

/-- The length of the longest right-hand side that is fed back through the matcher. -/
def longestRemap (insertions : List Insertion) : Nat :=
  longest (insertions.map fun insertion => insertion.mapping.refeeds)

/-- What one key, or one withheld key, can cost: a key that breaks a prefix is fed again, and with
it the rest of the prefix. -/
def refeeding (insertions : List Insertion) (pending : List Key) : Nat :=
  max (longestLhs insertions) pending.length + 1

theorem compile_within_refeeding (insertions : List Insertion) (pending : List Key) :
    Within (max (longestLhs insertions) pending.length) (compile insertions) := by
  refine compile_within fun insertion mem => ?_
  have one : insertion.lhs.length ≤ longestLhs insertions :=
    le_longest (List.mem_map.2 ⟨insertion, mem, rfl⟩)
  exact le_trans one (le_max_left _ _)

theorem compile_light (insertions : List Insertion) :
    Holding (fun mapping => mapping.refeeds ≤ longestRemap insertions) (compile insertions) :=
  compile_holding fun insertion mem => le_longest (List.mem_map.2 ⟨insertion, mem, rfl⟩)

/-- What a call with these mappings can cost, one more key included. -/
theorem weight_le_bound (keymaps : Keymaps) (insertions : List Insertion) :
    refeeding insertions keymaps.pending +
        weight (max (longestLhs insertions) keymaps.pending.length) (longestRemap insertions)
          keymaps.work ≤
      refeeding insertions keymaps.pending *
        (keymaps.pending.length + 1 + maxMapDepth * longestRemap insertions) := by
  have held : weight (max (longestLhs insertions) keymaps.pending.length)
      (longestRemap insertions) keymaps.work =
        refeeding insertions keymaps.pending * (maxMapDepth * longestRemap insertions) +
          max (longestLhs insertions) keymaps.pending.length * keymaps.pending.length := rfl
  have fewer := Nat.mul_le_mul_right keymaps.pending.length
    (Nat.le_succ (max (longestLhs insertions) keymaps.pending.length))
  rw [held, Nat.mul_add, Nat.mul_add, Nat.mul_one]
  rw [← Nat.add_one] at fewer
  rw [← refeeding] at fewer
  omega

theorem feed_settles (commandStatus : Mode → List Key → CommandStatus) (keymaps : Keymaps)
    {insertions : List Insertion} (compiled : keymaps.tries = compile insertions)
    (scope : MatchScope) (key : Key) :
    ∃ enough work, (∀ fuel, enough ≤ fuel →
        keymaps.feed commandStatus fuel scope key = some work) ∧
      work.fed ≤ refeeding insertions keymaps.pending *
        (keymaps.pending.length + 1 + maxMapDepth * longestRemap insertions) := by
  have within := compile_within_refeeding insertions keymaps.pending
  have light := compile_light insertions
  rw [← compiled] at within light
  obtain ⟨work, fed, spent⟩ := feedKey_feeds commandStatus scope within light _ keymaps.work key
    (le_max_right _ _) (le_refl _)
  refine ⟨_, work, fun fuel le => feedKey_extends commandStatus _ scope le _ _ _ fed, ?_⟩
  have cost := weight_le_bound keymaps insertions
  have paid := spent.paid
  have start : keymaps.work.fed = 0 := rfl
  have one : max (longestLhs insertions) keymaps.pending.length + 1 =
      refeeding insertions keymaps.pending := rfl
  omega

theorem flush_settles (commandStatus : Mode → List Key → CommandStatus) (keymaps : Keymaps)
    {insertions : List Insertion} (compiled : keymaps.tries = compile insertions)
    (scope : MatchScope) :
    ∃ enough work passes, (∀ fuel, enough ≤ fuel →
        keymaps.flush commandStatus fuel scope = some (work, passes)) ∧
      work.fed ≤ refeeding insertions keymaps.pending *
        (keymaps.pending.length + 1 + maxMapDepth * longestRemap insertions) ∧
      ∀ pass ∈ passes.dropLast, pass.2 < pass.1 := by
  have within := compile_within_refeeding insertions keymaps.pending
  have light := compile_light insertions
  rw [← compiled] at within light
  have short : keymaps.work.pending.length ≤
      max (longestLhs insertions) keymaps.pending.length := le_max_right _ _
  obtain ⟨last, passes, flushed, paid, shrink⟩ := flushLoop_spends commandStatus scope within
    light short (Nat.lt_succ_self _)
  refine ⟨_, last, passes, fun fuel le => flushLoop_extends commandStatus _ scope le flushed,
    ?_, shrink⟩
  have cost := weight_le_bound keymaps insertions
  have start : keymaps.work.fed = 0 := rfl
  omega

/-- Every call ends, whatever the mappings, the withheld keys, the scope and the oracle, and feeds
no more keys than the withheld ones, the new one and the right-hand sides the budget pays for,
each times what a key can be re-fed for; `flush` leaves fewer keys withheld after every pass but
the last. -/
theorem matcher_is_bounded (commandStatus : Mode → List Key → CommandStatus) (keymaps : Keymaps)
    (insertions : List Insertion) (scope : MatchScope) (key : Key) :
    let compiled := { keymaps with tries := compile insertions }
    let bound := refeeding insertions keymaps.pending *
      (keymaps.pending.length + 1 + maxMapDepth * longestRemap insertions)
    (∃ enough work, (∀ fuel, enough ≤ fuel →
        compiled.feed commandStatus fuel scope key = some work) ∧ work.fed ≤ bound) ∧
    ∃ enough work passes, (∀ fuel, enough ≤ fuel →
        compiled.flush commandStatus fuel scope = some (work, passes)) ∧ work.fed ≤ bound ∧
      ∀ pass ∈ passes.dropLast, pass.2 < pass.1 := by
  intro compiled bound
  constructor
  · exact feed_settles commandStatus compiled rfl scope key
  · exact flush_settles commandStatus compiled rfl scope

/-! A prefix can be broken again and again: with `a` and `aⁿb` mapped and `aⁿ` withheld, each key
that breaks it fires `a` and feeds the rest of the prefix again, so a key that starts nothing costs
about `n² / 2`, with no recursive mapping at all. -/

section Ladder

def ladderKey : Key := .char 'a'

def ladderMapping : Mapping where
  rhs := .lua 0
  nowait := false
  silent := false
  expr := false
  desc := none
  default := false

def rungs (n : Nat) : List Key := List.replicate n ladderKey

/-- The mappings `a` and `aⁿb`, in Normal mode. -/
def ladder (n : Nat) : List Insertion :=
  [⟨'n', [ladderKey], ladderMapping⟩, ⟨'n', rungs n ++ [.char 'b'], ladderMapping⟩]

def ladderTrie (n : Nat) : Trie :=
  (Node.empty.insert [ladderKey] ladderMapping).insert (rungs n ++ [.char 'b']) ladderMapping

/-- What a key that starts nothing costs behind `n` withheld ones. -/
def ladderCost : Nat → Nat
  | 0 => 1
  | n + 1 => ladderCost n + (n + 1)

variable {n : Nat}

theorem compile_ladder (n : Nat) : (compile (ladder n)).lookup 'n' = some (ladderTrie n) := by
  rfl

theorem ladder_valueAt (n : Nat) (word : List Key) :
    (ladderTrie n).valueAt word =
      if word = rungs n ++ [.char 'b'] then some ladderMapping
      else if word = [ladderKey] then some ladderMapping
      else none := by
  rw [ladderTrie, Node.valueAt_insert, Node.valueAt_insert]
  cases word with
  | nil => rfl
  | cons key word => rfl

theorem ladder_held {k : Nat} (inside : k ≤ n) :
    classify (ladderTrie n) (rungs k) = .livePrefix := by
  have whole : rungs k ++ (rungs (n - k) ++ [.char 'b']) = rungs n ++ [.char 'b'] := by
    rw [← List.append_assoc, rungs, rungs, ← List.replicate_add, Nat.add_sub_cancel' inside]
    rfl
  refine classify_live (rungs (n - k) ++ [.char 'b']) (by simp) ?_ ?_
  · rw [whole, ladder_valueAt, if_pos rfl]
    rfl
  · intro mapping value
    rw [ladder_valueAt] at value
    split at value
    · cases value
      rfl
    · split at value
      · cases value
        rfl
      · cases value

theorem ladder_broken (n k : Nat) :
    classify (ladderTrie n) (rungs k ++ [.char 'x']) = .none := by
  refine classify_broken (Option.not_isSome_iff_eq_none.1 fun walked => ?_)
  have foreign : ∀ word, .char 'x' ∉ word → ¬ List.IsPrefix (rungs k ++ [.char 'x']) word := by
    intro word apart front
    exact apart (front.subset (by simp))
  rcases Node.descend_insert _ _ _ _ walked with first | second
  · rcases Node.descend_insert _ _ _ _ first with nothing | front
    · rw [Node.descend_empty _ (by simp)] at nothing
      cases nothing
    · exact foreign _ (by decide) front
  · refine foreign _ ?_ second
    simp only [rungs, List.mem_append, List.mem_replicate, List.mem_singleton, not_or]
    exact ⟨fun here => absurd here.2 (by decide), by decide⟩

theorem ladder_fires (n k : Nat) :
    longestComplete (ladderTrie n) (rungs (k + 1)) = some (ladderMapping, 1) := by
  have first : (ladderTrie n).valueAt [ladderKey] = some ladderMapping := by
    rw [ladder_valueAt, if_pos rfl]
    split <;> rfl
  rw [longestComplete, rungs, List.replicate_succ, longestFrom]
  rw [Node.valueAt, Node.descend_cons] at first
  cases under : (ladderTrie n).child ladderKey with
  | none =>
      rw [under] at first
      cases first
  | some next =>
      have value : next.value = some ladderMapping := by simpa [under] using first
      simp only [value]
      refine longestFrom_best fun used some_key inside => ?_
      have further := ladder_valueAt n (ladderKey :: (List.replicate k ladderKey).take used)
      rw [Node.valueAt, Node.descend_cons, under] at further
      rw [Node.valueAt]
      refine further.trans ?_
      rw [List.take_replicate, if_neg, if_neg]
      · intro same
        have lengths := congrArg List.length same
        rw [List.length_replicate] at inside
        simp at lengths
        omega
      · intro same
        have there : Key.char 'b' ∈ ladderKey :: List.replicate (min used k) ladderKey := by
          rw [same]
          simp
        simp only [List.mem_cons, List.mem_replicate] at there
        rcases there with here | here
        · exact absurd here (by decide)
        · exact absurd here.2 (by decide)

variable {commandStatus : Mode → List Key → CommandStatus}

theorem ladder_withholds {fuel : Nat} (k j : Nat) (work : Work) (inside : k + j ≤ n) :
    run (feedKey commandStatus (compile (ladder n)) (.editing .normal) (fuel + 1))
      { work with pending := rungs k } (rungs j) =
        some { work with pending := rungs (k + j), fed := work.fed + j } := by
  induction j generalizing k work with
  | zero => rfl
  | succ j ih =>
      have fed : feedKey commandStatus (compile (ladder n)) (.editing .normal) (fuel + 1)
          { work with pending := rungs k } ladderKey =
            some { work with pending := rungs (k + 1), fed := work.fed + 1 } := by
        have found : (compile (ladder n)).lookup (MatchScope.editing .normal).bucket =
            some (ladderTrie n) := compile_ladder n
        have longer : rungs k ++ [ladderKey] = rungs (k + 1) :=
          (List.replicate_succ' (n := k) (a := ladderKey)).symm
        have live : classify (ladderTrie n) (rungs (k + 1)) = .livePrefix :=
          ladder_held (by omega)
        rw [feedKey, found]
        simp only [longer, live]
      have rest := ih (k + 1) { work with fed := work.fed + 1 } (by omega)
      refine run_cons.2 ⟨_, fed, rest.trans ?_⟩
      rw [Nat.add_right_comm k 1 j, Nat.add_right_comm work.fed 1 j]
      rfl

theorem ladder_costs {k : Nat} (inside : k ≤ n) (work : Work) :
    ∃ after, feedKey commandStatus (compile (ladder n)) (.editing .normal) (k + 1)
      { work with pending := rungs k } (.char 'x') = some after ∧
        after.fed = work.fed + ladderCost k := by
  have found : (compile (ladder n)).lookup (MatchScope.editing .normal).bucket =
      some (ladderTrie n) := compile_ladder n
  induction k generalizing work with
  | zero =>
      rw [feedKey, found]
      simp only [ladder_broken n 0]
      refine ⟨_, if_pos rfl, ?_⟩
      rfl
  | succ k ih =>
      -- `a` fires, the rest is withheld again, and the key breaks that in turn
      let emptied : Work := { work with fed := work.fed + 1, pending := [] }
      let fired := emptied.push (.fire (.lua 0) false false ((rungs (k + 1)).take 1))
      have refed : run (feedKey commandStatus (compile (ladder n)) (.editing .normal) (k + 1))
          fired ((rungs (k + 1)).drop 1) =
            some { fired with pending := rungs (0 + k), fed := fired.fed + k } :=
        ladder_withholds 0 k fired (by omega)
      have resolves : resolveBuffered
          (feedKey commandStatus (compile (ladder n)) (.editing .normal) (k + 1)) (ladderTrie n)
          emptied (rungs (k + 1)) =
            some ({ fired with pending := rungs (0 + k), fed := fired.fed + k }, none) := by
        have fires : fire (feedKey commandStatus (compile (ladder n)) (.editing .normal) (k + 1))
            emptied ladderMapping ((rungs (k + 1)).take 1) = some fired := rfl
        rw [resolveBuffered, ladder_fires]
        simp only [fires, refed, Option.map_some]
      obtain ⟨after, again, cost⟩ := ih (by omega) { fired with fed := fired.fed + k }
      refine ⟨after, ?_, ?_⟩
      · rw [feedKey, found]
        simp only [ladder_broken n (k + 1)]
        have some_rung : rungs (k + 1) ≠ [] := List.cons_ne_nil _ _
        rw [if_neg some_rung]
        refine Eq.trans ?_ again
        rw [Nat.zero_add] at resolves
        simp only [emptied] at resolves
        simp only [resolves, releases, Bool.false_eq_true, if_false]
      · have start : fired.fed = work.fed + 1 := rfl
        rw [cost, ladderCost]
        simp only
        omega

theorem twice_ladderCost (n : Nat) : 2 * ladderCost n = n * (n + 1) + 2 := by
  induction n with
  | zero => rfl
  | succ n ih =>
      rw [ladderCost, Nat.mul_add, ih]
      ring

end Ladder

/-- No constant factor is enough. -/
theorem no_constant_factor :
    ¬ ∃ factor, ∀ (commandStatus : Mode → List Key → CommandStatus) (keymaps : Keymaps)
      (insertions : List Insertion) (scope : MatchScope) (key : Key) (fuel : Nat) (work : Work),
      { keymaps with tries := compile insertions }.feed commandStatus fuel scope key = some work →
      work.fed ≤ factor *
        (keymaps.pending.length + 1 + maxMapDepth * longestRemap insertions) := by
  rintro ⟨factor, bounded⟩
  obtain ⟨after, fed, cost⟩ : ∃ after, feedKey (fun _ _ => .invalid)
      (compile (ladder (2 * factor + 1))) (.editing .normal) (2 * factor + 1 + 1)
      { Keymaps.default.work with pending := rungs (2 * factor + 1) } (.char 'x') = some after ∧
        after.fed = 0 + ladderCost (2 * factor + 1) := ladder_costs (le_refl _) _
  have bound := bounded (fun _ _ => .invalid)
    { Keymaps.default with pending := rungs (2 * factor + 1) } (ladder (2 * factor + 1))
    (.editing .normal) (.char 'x') _ after fed
  have no_remap : longestRemap (ladder (2 * factor + 1)) = 0 := rfl
  have length : (rungs (2 * factor + 1)).length = 2 * factor + 1 := List.length_replicate
  have twice := twice_ladderCost (2 * factor + 1)
  rw [no_remap] at bound
  simp only [length, cost] at bound
  nlinarith

/-! ### No key is lost -/

/-- The keys a step stands for. -/
def Step.keys : Step → List Key
  | .editor key => [key]
  | .fire _ _ _ lhs => lhs

def spelled (steps : List Step) : List Key := steps.flatMap Step.keys

@[simp] theorem spelled_append (front back : List Step) :
    spelled (front ++ back) = spelled front ++ spelled back := List.flatMap_append

@[simp] theorem spelled_editor (keys : List Key) : spelled (keys.map Step.editor) = keys := by
  induction keys with
  | nil => rfl
  | cons key keys ih =>
      rw [List.map_cons, spelled, List.flatMap_cons]
      exact congrArg (key :: ·) ih

/-- The keys a call has handed on, and those it withholds. -/
def Work.text (work : Work) : List Key := spelled work.steps ++ work.pending

/-- A mapping whose right-hand side is not fed back. -/
def Mapping.Terminal (mapping : Mapping) : Prop :=
  ∀ keys, mapping.rhs ≠ .keys keys false

/-- Feeding a key adds it at the end, and nothing else. -/
def Exact (feed : Work → Key → Option Work) : Prop :=
  ∀ work key after, feed work key = some after → after.text = work.text ++ [key]

section Exactness

variable {feed : Work → Key → Option Work}

theorem Exact.run (exact_ : Exact feed) {keys : List Key} {work after : Work}
    (fed : Run.run feed work keys = some after) : after.text = work.text ++ keys := by
  induction keys generalizing work with
  | nil =>
      cases fed
      rw [List.append_nil]
  | cons key keys ih =>
      obtain ⟨next, first, rest⟩ := run_cons.1 fed
      rw [ih rest, exact_ work key next first, List.append_assoc]
      rfl

theorem fire_terminal {mapping : Mapping} (terminal : mapping.Terminal) (work : Work)
    (lhs : List Key) :
    fire feed work mapping lhs =
      some (work.push (.fire mapping.rhs mapping.silent mapping.expr lhs)) := by
  rw [fire]
  split
  · rename_i keys remapped
    exact absurd remapped (terminal keys)
  · rfl

theorem text_push {work : Work} (emptied : work.pending = []) (step : Step) :
    (work.push step).text = work.text ++ step.keys := by
  simp [Work.text, Work.push, emptied, spelled]

theorem Exact.resolveBuffered (exact_ : Exact feed) {trie : Trie}
    (terminal : ∀ word mapping, trie.valueAt word = some mapping → mapping.Terminal)
    {work after : Work} (emptied : work.pending = []) {buffered : List Key}
    {raw : Option (List Key)}
    (resolves : Keymap.resolveBuffered feed trie work buffered = some (after, raw)) :
    after.text = work.text ++ buffered ∧ (raw.isSome → after.pending = []) := by
  rw [Keymap.resolveBuffered] at resolves
  split at resolves
  · rename_i mapping used longest
    obtain ⟨-, -, value⟩ := longestComplete_some longest
    rw [fire_terminal (terminal _ _ value)] at resolves
    simp only [Option.map_eq_some_iff, Prod.mk.injEq] at resolves
    obtain ⟨refed, refeeds, rfl, rfl⟩ := resolves
    have rest := exact_.run refeeds
    rw [text_push emptied] at rest
    refine ⟨?_, by simp⟩
    rw [rest, List.append_assoc]
    exact congrArg (work.text ++ ·) (List.take_append_drop used buffered)
  · cases resolves
    refine ⟨?_, fun _ => emptied⟩
    simp [Work.text, Work.replay, emptied]

/-- With no recursive mapping, `feed_key` neither loses nor doubles nor moves a key. -/
theorem feedKey_exact {commandStatus : Mode → List Key → CommandStatus}
    {tries : List (Char × Trie)} {scope : MatchScope} (terminal : Holding Mapping.Terminal tries)
    (fuel : Nat) : Exact (feedKey commandStatus tries scope fuel) := by
  induction fuel with
  | zero =>
      intro work key after fed
      cases fed
  | succ fuel ih =>
      intro work key after fed
      rw [feedKey] at fed
      have emptied_text : Work.text { work with fed := work.fed + 1, pending := [] } ++
          work.pending = work.text := by
        simp [Work.text]
      cases there : tries.lookup scope.bucket with
      | none =>
          rw [there] at fed
          cases fed
          have handed : spelled [Step.editor key] = [key] := rfl
          simp [Work.text, Work.push, Work.replay, handed]
      | some trie =>
          simp only [there] at fed
          cases classified : classify trie (work.pending ++ [key]) with
          | livePrefix =>
              simp only [classified] at fed
              cases fed
              simp [Work.text]
          | complete mapping =>
              simp only [classified] at fed
              have last := terminal _ trie there _ _ (classify_complete classified)
              rw [fire_terminal last] at fed
              cases fed
              rw [text_push rfl, ← emptied_text, List.append_assoc]
              rfl
          | none =>
              simp only [classified] at fed
              split at fed
              · rename_i nothing
                cases fed
                exact text_push nothing _
              · split at fed
                · rename_i resolved raw resolves
                  obtain ⟨kept, cleared⟩ :=
                    ih.resolveBuffered (terminal _ trie there) rfl resolves
                  rw [emptied_text] at kept
                  split at fed
                  · rename_i released
                    cases fed
                    have replayed : raw.isSome := by
                      cases raw with
                      | none => simp [releases] at released
                      | some run => rfl
                    rw [text_push (cleared replayed), kept]
                    rfl
                  · rw [ih _ _ _ fed, kept]
                · cases fed

theorem flushLoop_exact {commandStatus : Mode → List Key → CommandStatus}
    {tries : List (Char × Trie)} {scope : MatchScope} (terminal : Holding Mapping.Terminal tries)
    {fuel : Nat} {work last : Work} {passes : List (Nat × Nat)}
    (flushed : flushLoop commandStatus tries scope fuel work = some (last, passes)) :
    last.text = work.text := by
  induction fuel generalizing work last passes with
  | zero => cases flushed
  | succ fuel ih =>
      rw [flushLoop] at flushed
      split at flushed
      · cases flushed
        rfl
      · have pass : ∀ after, flushPass commandStatus tries scope fuel work = some after →
            after.text = work.text := by
          intro after passed
          rw [flushPass] at passed
          have emptied_text : Work.text { work with pending := [] } ++ work.pending =
              work.text := by
            simp [Work.text]
          cases there : tries.lookup scope.bucket with
          | none =>
              rw [there] at passed
              cases passed
              simp [Work.text, Work.replay]
          | some trie =>
              simp only [there, Option.map_eq_some_iff] at passed
              obtain ⟨⟨after, raw⟩, resolves, rfl⟩ := passed
              obtain ⟨kept, -⟩ := (feedKey_exact terminal fuel).resolveBuffered
                (terminal _ trie there) rfl resolves
              rw [kept, emptied_text]
        cases passed : flushPass commandStatus tries scope fuel work with
        | none =>
            rw [passed] at flushed
            cases flushed
        | some after =>
            simp only [passed] at flushed
            split at flushed
            · cases flushed
              exact pass last passed
            · simp only [Option.map_eq_some_iff, Prod.mk.injEq, Prod.exists] at flushed
              obtain ⟨final, rest, flushed, rfl, -⟩ := flushed
              rw [ih flushed, pass after passed]

end Exactness

/-! ### Runs of calls -/

/-- A string right-hand side that is fed back through the matcher. -/
def RawKeymap.Remaps (entry : RawKeymap) : Prop :=
  ∃ text, entry.rhs = .str text ∧ entry.noremap = false

/-- The keys the events feed. -/
def keysFed : List Event → List Key
  | [] => []
  | .feed _ key :: events => key :: keysFed events
  | _ :: events => keysFed events

/-- Nothing in the matcher is fed back, and every key so far is in a step or withheld. -/
structure Session.Kept (session : Session) : Prop where
  entries : ∀ entry ∈ session.keymaps.snapshot, ¬ entry.Remaps
  compiled : ∃ insertions, session.keymaps.tries = compile insertions ∧
    ∀ insertion ∈ insertions, insertion.mapping.Terminal
  text : spelled session.steps ++ session.keymaps.pending = session.keys

theorem mapping_terminal {entry : RawKeymap} (stays : ¬ entry.Remaps) :
    entry.mapping.Terminal := by
  intro keys same
  rw [RawKeymap.mapping] at same
  cases rhs : entry.rhs with
  | lua id =>
      rw [rhs] at same
      cases same
  | str text =>
      simp only [rhs, MappingRhs.keys.injEq] at same
      exact stays ⟨text, rhs, same.2⟩

theorem insertions_terminal {keyboardProtocol : Bool} {buffer : Nat}
    {snapshot : List RawKeymap} (stay : ∀ entry ∈ snapshot, ¬ entry.Remaps) :
    ∀ insertion ∈ insertions keyboardProtocol buffer snapshot, insertion.mapping.Terminal := by
  have source : ∀ insertion ∈ insertions keyboardProtocol buffer snapshot,
      ∃ entry ∈ snapshot, insertion.mapping = entry.mapping := by
    intro insertion mem
    simp only [insertions, List.mem_append, List.mem_flatMap, List.mem_map, List.mem_filter,
      kept] at mem
    rcases mem with ⟨entry, ⟨there, -⟩, mode, -, bucket, -, rfl⟩ |
        ⟨entry, ⟨⟨there, -⟩, -⟩, bucket, -, rfl⟩
    · exact ⟨entry, there, rfl⟩
    · exact ⟨entry, there, rfl⟩
  intro insertion mem
  obtain ⟨entry, there, same⟩ := source insertion mem
  rw [same]
  exact mapping_terminal (stay entry there)

theorem Session.kept_initial : Session.initial.Kept where
  entries := by
    intro entry mem
    cases mem
  compiled := ⟨[], rfl, by simp⟩
  text := rfl

/-- One call, with enough fuel, returns and keeps every key. -/
theorem Session.Kept.step (commandStatus : Mode → List Key → CommandStatus) {session : Session}
    (kept : session.Kept) (event : Event)
    (stay : ∀ version snapshot, event = .setSnapshot version snapshot →
      ∀ entry ∈ snapshot, ¬ entry.Remaps) :
    ∃ enough next, (∀ fuel, enough ≤ fuel →
        Session.step commandStatus fuel session event = some next) ∧ next.Kept ∧
      next.keys = session.keys ++ keysFed [event] := by
  obtain ⟨insertions, compiled, terminal⟩ := kept.compiled
  have holding : Holding Mapping.Terminal session.keymaps.tries := by
    rw [compiled]
    exact compile_holding terminal
  have start : session.keymaps.work.text = session.keymaps.pending := rfl
  have returned : ∀ work : Work, work.text = session.keymaps.pending →
      spelled (session.returned work).steps ++ (session.returned work).keymaps.pending =
        session.keys := by
    intro work text
    rw [← kept.text, ← text]
    simp [Session.returned, Keymaps.after, Work.text]
  cases event with
  | setSnapshot version snapshot =>
      refine ⟨0, _, fun fuel _ => rfl, ⟨?_, kept.compiled, kept.text⟩, by simp [keysFed]⟩
      intro entry mem
      refine stay version snapshot rfl entry ?_
      exact List.mem_mergeSort.1 mem
  | setKeyboardProtocol active =>
      refine ⟨0, _, fun fuel _ => rfl, ?_, by simp [keysFed]⟩
      rw [Keymaps.setKeyboardProtocol]
      split
      · exact kept
      · exact ⟨kept.entries, kept.compiled, kept.text⟩
  | buildFor buffer =>
      refine ⟨0, _, fun fuel _ => rfl, ⟨kept.entries, ⟨_, rfl, ?_⟩, kept.text⟩,
        by simp [keysFed]⟩
      exact insertions_terminal kept.entries
  | feed scope key =>
      obtain ⟨enough, work, feeds, -⟩ :=
        feed_settles commandStatus session.keymaps compiled scope key
      have text := feedKey_exact holding enough _ _ _ (feeds enough (le_refl _))
      refine ⟨enough, { session.returned work with keys := session.keys ++ [key] }, ?_, ?_, rfl⟩
      · intro fuel le
        rw [Session.step, feeds fuel le]
        rfl
      · refine ⟨kept.entries, kept.compiled, ?_⟩
        rw [start] at text
        have keys : spelled session.steps ++ work.text = session.keys ++ [key] := by
          rw [text, ← List.append_assoc, kept.text]
        simpa [Session.returned, Keymaps.after, Work.text] using keys
  | flush scope =>
      obtain ⟨enough, work, passes, flushes, -⟩ :=
        flush_settles commandStatus session.keymaps compiled scope
      have text := flushLoop_exact holding (flushes enough (le_refl _))
      refine ⟨enough, session.returned work, ?_, ?_, by simp [keysFed, Session.returned]⟩
      · intro fuel le
        rw [Session.step, flushes fuel le]
        rfl
      · exact ⟨kept.entries, kept.compiled, returned work text⟩

theorem keysFed_append (front back : List Event) :
    keysFed (front ++ back) = keysFed front ++ keysFed back := by
  induction front with
  | nil => rfl
  | cons event front ih => cases event <;> simp [keysFed, ih]

theorem Session.Kept.run (commandStatus : Mode → List Key → CommandStatus) {session : Session}
    (kept : session.Kept) (events : List Event)
    (stay : ∀ version snapshot, .setSnapshot version snapshot ∈ events →
      ∀ entry ∈ snapshot, ¬ entry.Remaps) :
    ∃ enough final, (∀ fuel, enough ≤ fuel →
        Run.run (Session.step commandStatus fuel) session events = some final) ∧ final.Kept ∧
      final.keys = session.keys ++ keysFed events := by
  induction events generalizing session with
  | nil => exact ⟨0, session, fun fuel _ => rfl, kept, (List.append_nil _).symm⟩
  | cons event events ih =>
      obtain ⟨enough, next, steps, kept', keys⟩ := kept.step commandStatus event
        fun version snapshot same => stay version snapshot (same ▸ List.mem_cons_self)
      obtain ⟨enough', final, runs, kept'', keys'⟩ := ih kept'
        fun version snapshot mem => stay version snapshot (List.mem_cons_of_mem _ mem)
      refine ⟨max enough enough', final, fun fuel le => ?_, kept'', ?_⟩
      · exact run_cons.2 ⟨next, steps fuel (le_trans (le_max_left _ _) le),
          runs fuel (le_trans (le_max_right _ _) le)⟩
      · rw [keys', keys, List.append_assoc, ← keysFed_append]
        rfl

/-- With no string mapping that is fed back, every sequence of calls returns, and the steps they
return, read in order, and the keys still withheld are the keys that were fed. -/
theorem matcher_keeps_keys (commandStatus : Mode → List Key → CommandStatus)
    (events : List Event)
    (stay : ∀ version snapshot, .setSnapshot version snapshot ∈ events →
      ∀ entry ∈ snapshot, ¬ entry.Remaps) :
    ∃ enough final, (∀ fuel, enough ≤ fuel →
        Run.run (Session.step commandStatus fuel) .initial events = some final) ∧
      spelled final.steps ++ final.keymaps.pending = keysFed events := by
  obtain ⟨enough, final, runs, kept, keys⟩ := Session.kept_initial.run commandStatus events stay
  refine ⟨enough, final, runs, ?_⟩
  rw [kept.text, keys]
  rfl

/-- `j` calls a function and `jk` feeds its keys to the editor as they are. -/
def overlapping : List RawKeymap :=
  [{ modes := ["n"], lhs := "j", rhs := .lua 1, noremap := false, buffer := none, desc := none,
     nowait := false, silent := false, expr := false, default := false, seq := 1 },
   { modes := ["n"], lhs := "jk", rhs := .str "<Esc>", noremap := true, buffer := none,
     desc := none, nowait := false, silent := false, expr := false, default := false, seq := 2 }]

theorem matcher_keeps_keys_overlap :
    ∃ enough final, (∀ fuel, enough ≤ fuel →
        Run.run (Session.step (fun _ _ => .complete) fuel) .initial
          [.setSnapshot 1 overlapping, .buildFor 0, .feed (.editing .normal) (.char 'j'),
            .feed (.editing .normal) (.char 'x'), .feed (.editing .normal) (.char 'j'),
            .flush (.editing .insert)] = some final) ∧
      spelled final.steps ++ final.keymaps.pending = [.char 'j', .char 'x', .char 'j'] := by
  refine matcher_keeps_keys (fun _ _ => .complete) _ ?_
  intro version snapshot mem entry there
  simp only [List.mem_cons, Event.setSnapshot.injEq, reduceCtorEq, List.not_mem_nil, or_false]
    at mem
  obtain ⟨rfl, rfl⟩ := mem
  rintro ⟨text, str, remaps⟩
  simp only [overlapping, List.mem_cons, List.not_mem_nil, or_false] at there
  rcases there with rfl | rfl
  · cases str
  · cases remaps

end Bemtvi.Server.Keymap
