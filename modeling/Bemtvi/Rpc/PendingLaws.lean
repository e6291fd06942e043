/-
Module: Bemtvi.Rpc.PendingLaws
Purpose: Whatever the order of calls, cancellations, responses, refusals and teardown, the pending
  map holds exactly the outstanding calls, and a call ends at most once, by a response to its
  own id that arrived while it was outstanding or by a local failure.
Trusted boundary: none
Main exports: Call.Outstanding, Link.Inv, Changed, Advance, step_effect, step_inv, step_advance,
  request_answered_once
-/
import Bemtvi.Rpc.Pending

namespace Bemtvi.Rpc

open Msgpack
open Run (run run_concat run_invariant run_history)

/-! ### The invariant

A call is outstanding from its registration until its channel is written or closed.  The map is
determined by the calls: it holds exactly the outstanding ones, each under its own id. -/

/-- Registered, and neither answered, cancelled nor refused. -/
structure Call.Outstanding (call : Call) : Prop where
  waiting : call.phase = .registered ∨ call.phase = .awaiting
  unanswered : call.channel = .empty

/-- The invariant of a connection. -/
structure Link.Inv (link : Link) : Prop where
  next : link.nextId = link.calls.length + 1
  ids : ∀ (c : Nat) (call : Call), link.calls[c]? = some call → call.msgId = c + 1
  fresh : ∀ (c : Nat) (call : Call), link.calls[c]? = some call →
    call.phase = .allocated → call.channel = .empty
  keyed : ∀ map, link.pending = some map → ∀ id c, map.lookup id = some c ↔
    id = c + 1 ∧ ∃ call, link.calls[c]? = some call ∧ call.Outstanding
  torn : link.pending = none → ∀ (c : Nat) (call : Call), link.calls[c]? = some call →
    ¬ call.Outstanding

theorem Link.init_inv : Link.init.Inv where
  next := rfl
  ids := by
    intro c call here
    simp [Link.init] at here
  fresh := by
    intro c call here
    simp [Link.init] at here
  keyed := by
    intro map same id c
    cases same
    simp [Link.init]
  torn := by
    intro torn
    cases torn

variable {c : Nat} {call call' : Call} {link link' : Link} {map : PendingMap} {reply : Reply}
  {event : Event} {write : Value → List UInt8} {events : List Event}

/-- What the map holds under a call's id: the call, while it is outstanding. -/
theorem Link.Inv.lookup (inv : link.Inv) (live : link.pending = some map)
    (here : link.calls[c]? = some call) : (call.Outstanding → map.lookup (c + 1) = some c) ∧
      (¬ call.Outstanding → map.lookup (c + 1) = none) := by
  constructor
  · intro outstanding
    exact (inv.keyed map live _ _).2 ⟨rfl, call, here, outstanding⟩
  · intro quiet
    cases held : map.lookup (c + 1) with
    | none => rfl
    | some k =>
        rcases (inv.keyed map live _ _).1 held with ⟨own, call', here', outstanding⟩
        have same : k = c := by omega
        rw [same, here] at here'
        cases here'
        exact absurd outstanding quiet

/-- Only call `c` differs between the two states, and the map holds it exactly if the changed call
is outstanding. -/
structure Changed (link link' : Link) (c : Nat) (call call' : Call) : Prop where
  here : link.calls[c]? = some call
  calls : ∀ k, link'.calls[k]? = if k = c then some call' else link.calls[k]?
  length : link'.calls.length = link.calls.length
  nextId : link'.nextId = link.nextId
  msgId : call'.msgId = call.msgId
  fresh : call'.phase = .allocated → call'.channel = .empty
  pending : (link.pending = none ∧ link'.pending = none ∧ ¬ call'.Outstanding) ∨
    ∃ map map', link.pending = some map ∧ link'.pending = some map' ∧
      (∀ id, id ≠ c + 1 → map'.lookup id = map.lookup id) ∧
      (call'.Outstanding → map'.lookup (c + 1) = some c) ∧
      (¬ call'.Outstanding → map'.lookup (c + 1) = none)

theorem Changed.here' (changed : Changed link link' c call call') :
    link'.calls[c]? = some call' := by
  rw [changed.calls, if_pos rfl]

theorem Changed.trans {link'' : Link} {call'' : Call} (first : Changed link link' c call call')
    (second : Changed link' link'' c call' call'') : Changed link link'' c call call'' where
  here := first.here
  calls := by
    intro k
    rw [second.calls, first.calls]
    split <;> rfl
  length := second.length.trans first.length
  nextId := second.nextId.trans first.nextId
  msgId := second.msgId.trans first.msgId
  fresh := second.fresh
  pending := by
    rcases first.pending with ⟨torn, torn', -⟩ | ⟨map, map', live, live', others, -, -⟩
    · rcases second.pending with ⟨-, torn'', quiet⟩ | ⟨_, _, live', -⟩
      · exact Or.inl ⟨torn, torn'', quiet⟩
      · cases torn'.symm.trans live'
    · rcases second.pending with ⟨torn', -, -⟩ | ⟨before, after, same, live'', others', held, gone⟩
      · cases live'.symm.trans torn'
      · cases live'.symm.trans same
        refine Or.inr ⟨map, after, live, live'', ?_, held, gone⟩
        intro id other
        rw [others' id other, others id other]

/-- The invariant survives a change of one call. -/
theorem Changed.inv (inv : link.Inv) (changed : Changed link link' c call call') : link'.Inv where
  next := by rw [changed.nextId, changed.length, inv.next]
  ids := by
    intro k other at_k
    rw [changed.calls] at at_k
    split at at_k
    · next same =>
        cases at_k
        rw [same, changed.msgId, inv.ids c call changed.here]
    · exact inv.ids k other at_k
  fresh := by
    intro k other at_k
    rw [changed.calls] at at_k
    split at at_k
    · cases at_k
      exact changed.fresh
    · exact inv.fresh k other at_k
  keyed := by
    intro after live id k
    rcases changed.pending with ⟨-, torn, -⟩ | ⟨map, map', before, live', others, held, gone⟩
    · cases torn.symm.trans live
    · cases live.symm.trans live'
      rw [changed.calls]
      by_cases own : id = c + 1
      · subst own
        by_cases outstanding : call'.Outstanding
        · rw [held outstanding]
          constructor
          · intro same
            cases same
            exact ⟨rfl, call', if_pos rfl, outstanding⟩
          · rintro ⟨same, -⟩
            rw [Nat.succ.inj same]
        · rw [gone outstanding]
          constructor
          · intro absent
            cases absent
          · rintro ⟨same, other, at_k, outstanding'⟩
            rw [if_pos (Nat.succ.inj same).symm] at at_k
            cases at_k
            exact absurd outstanding' outstanding
      · rw [others id own, inv.keyed map before id k]
        constructor
        · rintro ⟨rfl, rest⟩
          rw [if_neg (fun same => own (by rw [same]))]
          exact ⟨rfl, rest⟩
        · rintro ⟨rfl, rest⟩
          rw [if_neg (fun same => own (by rw [same]))] at rest
          exact ⟨rfl, rest⟩
  torn := by
    intro torn k other at_k
    rcases changed.pending with ⟨before, -, quiet⟩ | ⟨_, _, -, live, -⟩
    · rw [changed.calls] at at_k
      split at at_k
      · cases at_k
        exact quiet
      · exact inv.torn before k other at_k
    · cases torn.symm.trans live

theorem getElem?_modify_of {calls : List Call} (here : calls[c]? = some call)
    (change : Call → Call) (k : Nat) :
    (calls.modify c change)[k]? = if k = c then some (change call) else calls[k]? := by
  rw [List.getElem?_modify]
  by_cases same : k = c
  · rw [if_pos same, same, here]
    simp
  · rw [if_neg same]
    simp [Ne.symm same]

/-- A change of one call that leaves it as outstanding as it was needs no change of the map. -/
theorem changed_calls (inv : link.Inv) (here : link.calls[c]? = some call) (change : Call → Call)
    (calls : link'.calls = link.calls.modify c change) (pending : link'.pending = link.pending)
    (nextId : link'.nextId = link.nextId) (msgId : (change call).msgId = call.msgId)
    (fresh : (change call).phase = .allocated → (change call).channel = .empty)
    (same : (change call).Outstanding ↔ call.Outstanding) :
    Changed link link' c call (change call) where
  here := here
  calls := by
    intro k
    rw [calls]
    exact getElem?_modify_of here change k
  length := by rw [calls, List.length_modify]
  nextId := nextId
  msgId := msgId
  fresh := fresh
  pending := by
    rw [pending]
    cases live : link.pending with
    | none => exact Or.inl ⟨rfl, rfl, fun outstanding => inv.torn live c call here (same.1 outstanding)⟩
    | some map =>
        rcases inv.lookup live here with ⟨held, gone⟩
        refine Or.inr ⟨map, map, rfl, rfl, fun _ _ => rfl, ?_, ?_⟩
        · intro outstanding
          exact held (same.1 outstanding)
        · intro quiet
          exact gone (fun outstanding => quiet (same.2 outstanding))

/-- An outstanding call's entry leaves the map together with its sender. -/
theorem changed_erase (live : link.pending = some map) (here : link.calls[c]? = some call)
    (change : Call → Call) (calls : link'.calls = link.calls.modify c change)
    (pending : link'.pending = some (map.erase (c + 1))) (nextId : link'.nextId = link.nextId)
    (msgId : (change call).msgId = call.msgId)
    (fresh : (change call).phase = .allocated → (change call).channel = .empty)
    (quiet : ¬ (change call).Outstanding) : Changed link link' c call (change call) where
  here := here
  calls := by
    intro k
    rw [calls]
    exact getElem?_modify_of here change k
  length := by rw [calls, List.length_modify]
  nextId := nextId
  msgId := msgId
  fresh := fresh
  pending := by
    refine Or.inr ⟨map, _, live, pending, ?_, ?_, ?_⟩
    · intro id other
      exact AList.lookup_erase_ne other
    · intro outstanding
      exact absurd outstanding quiet
    · intro _
      exact AList.lookup_erase _ _

/-! ### What each operation changes -/

@[simp] theorem hangUp_msgId (call : Call) : call.hangUp.msgId = call.msgId := by
  unfold Call.hangUp
  split <;> rfl

@[simp] theorem hangUp_phase (call : Call) : call.hangUp.phase = call.phase := by
  unfold Call.hangUp
  split <;> rfl

@[simp] theorem deliver_msgId (reply : Reply) (call : Call) :
    (call.deliver reply).msgId = call.msgId := by
  unfold Call.deliver
  split <;> rfl

@[simp] theorem deliver_phase (reply : Reply) (call : Call) :
    (call.deliver reply).phase = call.phase := by
  unfold Call.deliver
  split <;> rfl

theorem hangUp_not_outstanding (call : Call) : ¬ call.hangUp.Outstanding := by
  rintro ⟨-, empty⟩
  unfold Call.hangUp at empty
  split at empty
  · cases empty
  · next other => exact other empty

theorem deliver_not_outstanding (reply : Reply) (call : Call) :
    ¬ (call.deliver reply).Outstanding := by
  rintro ⟨-, empty⟩
  unfold Call.deliver at empty
  split at empty
  · cases empty
  · next other => exact other empty

theorem Call.Outstanding.not_allocated (outstanding : call.Outstanding) :
    call.phase ≠ .allocated := by
  intro allocated
  rcases outstanding.waiting with phase | phase
  · cases allocated.symm.trans phase
  · cases allocated.symm.trans phase

/-- Forgetting a call's id leaves the call where it stands, no longer outstanding. -/
theorem forget_changed (inv : link.Inv) (here : link.calls[c]? = some call) :
    ∃ call', Changed link (link.forget call.msgId) c call call' ∧ call'.phase = call.phase ∧
      ¬ call'.Outstanding := by
  rw [inv.ids c call here]
  unfold Link.forget
  by_cases outstanding : call.Outstanding
  · cases live : link.pending with
    | none => exact absurd outstanding (inv.torn live c call here)
    | some map =>
        simp only [(inv.lookup live here).1 outstanding]
        refine ⟨call.hangUp, changed_erase live here _ rfl rfl rfl (hangUp_msgId call) ?_
          (hangUp_not_outstanding call), hangUp_phase call, hangUp_not_outstanding call⟩
        rw [hangUp_phase]
        intro allocated
        exact absurd allocated outstanding.not_allocated
  · have unchanged : Changed link link c call call :=
      changed_calls inv here id (by rw [List.modify_id]) rfl rfl rfl (inv.fresh c call here) Iff.rfl
    cases live : link.pending with
    | none => exact ⟨call, unchanged, rfl, outstanding⟩
    | some map =>
        simp only [(inv.lookup live here).2 outstanding]
        exact ⟨call, unchanged, rfl, outstanding⟩

/-- A call that returns, or is dropped, is over. -/
def Phase.Over : Phase → Prop
  | .done _ | .cancelled => True
  | .allocated | .registered | .awaiting => False

theorem not_outstanding_of_over (finished : call.phase.Over) : ¬ call.Outstanding := by
  rintro ⟨phase | phase, -⟩
  · rw [phase] at finished
    exact finished
  · rw [phase] at finished
    exact finished

/-- Returning from `request` takes the call's entry out of the map. -/
theorem finish_changed (inv : link.Inv) (here : link.calls[c]? = some call) (phase : Phase)
    (finished : phase.Over) :
    ∃ call', Changed link (link.finish c call.msgId phase) c call call' ∧ call'.phase = phase := by
  rcases forget_changed inv here with ⟨call', forgotten, -, quiet⟩
  have over_quiet : ¬ (call'.moveTo phase).Outstanding := not_outstanding_of_over finished
  have moved : Changed (link.forget call.msgId) (link.finish c call.msgId phase) c call'
      (call'.moveTo phase) := by
    refine changed_calls (forgotten.inv inv) forgotten.here' _ rfl rfl rfl rfl ?_ ?_
    · intro allocated
      have stuck : phase = .allocated := allocated
      rw [stuck] at finished
      exact absurd finished id
    · exact ⟨fun outstanding => absurd outstanding over_quiet,
        fun outstanding => absurd outstanding quiet⟩
  exact ⟨_, forgotten.trans moved, rfl⟩

/-- What an event makes of one call. -/
inductive Advance (event : Event) (c : Nat) (call : Call) : Call → Prop where
  | same : Advance event c call call
  | registered (phase : call.phase = .allocated) (channel : call.channel = .empty) :
      Advance event c call (call.moveTo .registered)
  | failed {call' : Call} {why : Resolution}
      (early : call.phase = .allocated ∨ call.phase = .registered)
      (phase : call'.phase = .done why)
      (reason : why = .closed ∨ ∃ method text, why = .tooLarge method text) :
      Advance event c call call'
  | queued (phase : call.phase = .registered) : Advance event c call (call.moveTo .awaiting)
  | replied {call' : Call} {reply : Reply} (phase : call.phase = .awaiting)
      (channel : call.channel = .sent reply)
      (phase' : call'.phase = .done (.of reply)) : Advance event c call call'
  | closed {call' : Call} (phase : call.phase = .awaiting) (channel : call.channel = .dropped)
      (phase' : call'.phase = .done .closed) : Advance event c call call'
  | cancelled {call' : Call} (phase : call.phase = .awaiting) (phase' : call'.phase = .cancelled) :
      Advance event c call call'
  | answered {val : Value} {reply : Reply} (outstanding : call.Outstanding)
      (framed : event = .frame val) (own : classify val = .response (c + 1) reply) :
      Advance event c call (call.deliver reply)
  | refused {why : String} (outstanding : call.Outstanding) (refusing : event = .refuse why) :
      Advance event c call (call.deliver (refusal why))
  | hungUp (outstanding : call.Outstanding) (cleaning : event = .cleanup) :
      Advance event c call call.hangUp

theorem register_changed (inv : link.Inv) (here : link.calls[c]? = some call)
    (allocated : call.phase = .allocated) (event : Event) :
    ∃ call', Changed link (link.register c call) c call call' ∧ Advance event c call call' := by
  have quiet : ¬ call.Outstanding := fun outstanding => outstanding.not_allocated allocated
  have own := inv.ids c call here
  have empty := inv.fresh c call here allocated
  unfold Link.register
  cases live : link.pending with
  | none =>
      refine ⟨call.moveTo (.done .closed), ?_,
        .failed (Or.inl allocated) rfl (Or.inl rfl)⟩
      refine changed_calls inv here _ rfl live.symm rfl rfl ?_ ?_
      · intro stuck
        cases stuck
      · exact ⟨fun outstanding => absurd outstanding (not_outstanding_of_over trivial),
          fun outstanding => absurd outstanding quiet⟩
  | some map =>
      have absent := (inv.lookup live here).2 quiet
      rw [own]
      simp only [absent]
      refine ⟨call.moveTo .registered, ?_, .registered allocated empty⟩
      refine ⟨here, getElem?_modify_of here _, List.length_modify .., rfl, rfl, ?_, ?_⟩
      · intro stuck
        cases stuck
      · refine Or.inr ⟨map, _, live, rfl, ?_, ?_, ?_⟩
        · intro id other
          exact AList.lookup_insert_ne other
        · intro _
          exact AList.lookup_insert _
        · intro still
          exact absurd ⟨Or.inl rfl, empty⟩ still

theorem transmit_changed (write : Value → List UInt8) (inv : link.Inv)
    (here : link.calls[c]? = some call) (registered : call.phase = .registered) (event : Event) :
    ∃ call', Changed link (link.transmit write c call) c call call' ∧
      Advance event c call call' := by
  unfold Link.transmit
  cases encoded : encodeChecked write call.frame with
  | error why =>
      rcases finish_changed inv here (.done (.tooLarge call.method why)) trivial with
        ⟨call', changed, phase⟩
      exact ⟨call', changed, .failed (Or.inr registered) phase (Or.inr ⟨_, _, rfl⟩)⟩
  | ok bytes =>
      cases gone : link.writerGone with
      | true =>
          rcases forget_changed inv here with ⟨call', forgotten, -, -⟩
          rcases finish_changed (forgotten.inv inv) forgotten.here'
            (.done .closed) trivial with ⟨call'', finished, phase⟩
          rw [forgotten.msgId] at finished
          exact ⟨call'', forgotten.trans finished, .failed (Or.inr registered) phase (Or.inl rfl)⟩
      | false =>
          refine ⟨call.moveTo .awaiting, ?_, .queued registered⟩
          refine changed_calls inv here _ rfl rfl rfl rfl ?_ ?_
          · intro stuck
            cases stuck
          · exact ⟨fun outstanding => ⟨Or.inl registered, outstanding.unanswered⟩,
              fun outstanding => ⟨Or.inr rfl, outstanding.unanswered⟩⟩

/-- A response reaches at most the one call registered under its id. -/
theorem answer_changed (inv : link.Inv) {val : Value} {id : Nat}
    (own : classify val = .response id reply) : link.answer id reply = link ∨
      ∃ c call call', Changed link (link.answer id reply) c call call' ∧
        Advance (.frame val) c call call' := by
  unfold Link.answer
  cases live : link.pending with
  | none => exact Or.inl rfl
  | some map =>
      cases held : map.lookup id with
      | none =>
          simp only [held]
          exact Or.inl trivial
      | some c =>
          rcases (inv.keyed map live id c).1 held with ⟨rfl, call, here, outstanding⟩
          simp only [held]
          refine Or.inr ⟨c, call, call.deliver reply, ?_, .answered outstanding rfl own⟩
          refine changed_erase live here _ rfl rfl rfl (deliver_msgId reply call) ?_
            (deliver_not_outstanding reply call)
          rw [deliver_phase]
          intro allocated
          exact absurd allocated outstanding.not_allocated

/-- Ending a list of calls one by one: each listed call is ended, the others stay. -/
theorem foldl_modify (last : Call → Call) (ended : ∀ call, last (last call) = last call)
    (entries : List (Sigma fun _ : Nat => Nat)) (calls : List Call) (k : Nat) :
    (entries.foldl (fun calls entry => calls.modify entry.2 last) calls)[k]? =
      if k ∈ entries.map (·.2) then calls[k]?.map last else calls[k]? := by
  induction entries generalizing calls with
  | nil => simp
  | cons entry entries ih =>
      rw [List.foldl_cons, ih, List.map_cons]
      by_cases own : k = entry.2
      · subst own
        rw [if_pos List.mem_cons_self, List.getElem?_modify]
        cases calls[entry.2]? with
        | none => simp
        | some call => simp [ended]
      · have skipped : (calls.modify entry.2 last)[k]? = calls[k]? := by
          rw [List.getElem?_modify]
          simp [Ne.symm own]
        simp only [skipped, List.mem_cons, own, false_or]

theorem foldl_modify_length (last : Call → Call) (entries : List (Sigma fun _ : Nat => Nat))
    (calls : List Call) :
    (entries.foldl (fun calls entry => calls.modify entry.2 last) calls).length =
      calls.length := by
  induction entries generalizing calls with
  | nil => rfl
  | cons entry entries ih => rw [List.foldl_cons, ih, List.length_modify]

/-- The map has been taken: every outstanding call is ended by `last`, the others stay. -/
structure Taken (link link' : Link) (last : Call → Call) : Prop where
  pending : link'.pending = none
  nextId : link'.nextId = link.nextId
  length : link'.calls.length = link.calls.length
  ended : ∀ (c : Nat) (call : Call), link.calls[c]? = some call → call.Outstanding →
    link'.calls[c]? = some (last call)
  stays : ∀ (c : Nat) (call : Call), link.calls[c]? = some call → ¬ call.Outstanding →
    link'.calls[c]? = some call

theorem take_taken (inv : link.Inv) (last : Call → Call)
    (ended : ∀ call, last (last call) = last call) : Taken link (link.takePending last) last := by
  unfold Link.takePending
  cases live : link.pending with
  | none =>
      refine ⟨live, rfl, rfl, ?_, ?_⟩
      · intro c call here outstanding
        exact absurd outstanding (inv.torn live c call here)
      · intro c call here _
        exact here
  | some map =>
      have listed : ∀ (c : Nat) (call : Call), link.calls[c]? = some call →
          (c ∈ map.entries.map (·.2) ↔ call.Outstanding) := by
        intro c call here
        rw [List.mem_map]
        constructor
        · rintro ⟨entry, member, rfl⟩
          rcases (inv.keyed map live _ _).1 (AList.mem_lookup_iff.2 member) with
            ⟨-, call', here', outstanding⟩
          rw [here] at here'
          cases here'
          exact outstanding
        · intro outstanding
          exact ⟨⟨c + 1, c⟩, AList.mem_lookup_iff.1 ((inv.lookup live here).1 outstanding), rfl⟩
      refine ⟨rfl, rfl, foldl_modify_length last _ _, ?_, ?_⟩
      · intro c call here outstanding
        simp only
        rw [foldl_modify last ended, if_pos ((listed c call here).2 outstanding), here]
        rfl
      · intro c call here quiet
        simp only
        rw [foldl_modify last ended, if_neg (fun member => quiet ((listed c call here).1 member)),
          here]

theorem hangUp_hangUp (call : Call) : call.hangUp.hangUp = call.hangUp := by
  cases channel : call.channel <;> simp [Call.hangUp, channel]

theorem deliver_deliver (reply : Reply) (call : Call) :
    (call.deliver reply).deliver reply = call.deliver reply := by
  cases channel : call.channel <;> simp [Call.deliver, channel]

theorem Taken.inv {last : Call → Call} (inv : link.Inv) (taken : Taken link link' last)
    (msgId : ∀ call, (last call).msgId = call.msgId)
    (phase : ∀ call, (last call).phase = call.phase) (quiet : ∀ call, ¬ (last call).Outstanding) :
    link'.Inv := by
  have before : ∀ (c : Nat) (call' : Call), link'.calls[c]? = some call' →
      ∃ call, link.calls[c]? = some call ∧
        ((call.Outstanding ∧ call' = last call) ∨ (¬ call.Outstanding ∧ call' = call)) := by
    intro c call' here'
    have bound : c < link.calls.length := by
      rw [← taken.length]
      exact (List.getElem?_eq_some_iff.1 here').1
    have here := List.getElem?_eq_getElem bound
    refine ⟨_, here, ?_⟩
    by_cases outstanding : link.calls[c].Outstanding
    · rw [taken.ended c _ here outstanding] at here'
      cases here'
      exact Or.inl ⟨outstanding, rfl⟩
    · rw [taken.stays c _ here outstanding] at here'
      cases here'
      exact Or.inr ⟨outstanding, rfl⟩
  refine ⟨?_, ?_, ?_, ?_, ?_⟩
  · rw [taken.nextId, taken.length, inv.next]
  · intro c call' here'
    rcases before c call' here' with ⟨call, here, ⟨-, rfl⟩ | ⟨-, rfl⟩⟩
    · rw [msgId, inv.ids c call here]
    · exact inv.ids c _ here
  · intro c call' here' allocated
    rcases before c call' here' with ⟨call, here, ⟨outstanding, rfl⟩ | ⟨-, rfl⟩⟩
    · rw [phase] at allocated
      exact absurd allocated outstanding.not_allocated
    · exact inv.fresh c _ here allocated
  · intro map live
    cases taken.pending.symm.trans live
  · intro _ c call' here'
    rcases before c call' here' with ⟨call, here, ⟨-, rfl⟩ | ⟨idle, rfl⟩⟩
    · exact quiet call
    · exact idle

/-! ### Steps -/

/-- What one event does to a connection. -/
inductive Effect (event : Event) (link link' : Link) : Prop where
  /-- The calls and the map stay. -/
  | none (pending : link'.pending = link.pending) (calls : link'.calls = link.calls)
      (nextId : link'.nextId = link.nextId)
  | begun {call : Call} (allocated : call.phase = .allocated) (empty : call.channel = .empty)
      (own : call.msgId = link.nextId) (pending : link'.pending = link.pending)
      (calls : link'.calls = link.calls ++ [call]) (nextId : link'.nextId = link.nextId + 1)
  | one {c : Nat} {call call' : Call} (changed : Changed link link' c call call')
      (advance : Advance event c call call')
  | taken {last : Call → Call} (taken : Taken link link' last)
      (cause : (event = .cleanup ∧ last = Call.hangUp) ∨
        ∃ why, event = .refuse why ∧ last = Call.deliver (refusal why))

/-- **Inversion of a step.** -/
theorem step_effect (inv : link.Inv) (step : link.step write event = some link') :
    Effect event link link' := by
  cases event with
  | begin method params =>
      cases step
      exact .begun rfl rfl rfl rfl rfl rfl
  | register c =>
      simp only [Link.step] at step
      split at step
      · next call here =>
          split at step
          · next allocated =>
              cases step
              rcases register_changed inv here allocated (.register c) with ⟨_, changed, advance⟩
              exact .one changed advance
          · cases step
      · cases step
  | transmit c =>
      simp only [Link.step] at step
      split at step
      · next call here =>
          split at step
          · next registered =>
              cases step
              rcases transmit_changed write inv here registered (.transmit c) with
                ⟨_, changed, advance⟩
              exact .one changed advance
          · cases step
      · cases step
  | resume c =>
      simp only [Link.step] at step
      split at step
      · next call here =>
          split at step
          · next v awaiting channel =>
              cases step
              rcases finish_changed inv here (.done (.ok v)) trivial with ⟨_, changed, phase⟩
              exact .one changed (.replied awaiting channel phase)
          · next e awaiting channel =>
              cases step
              rcases finish_changed inv here (.done (.error e)) trivial with ⟨_, changed, phase⟩
              exact .one changed (.replied awaiting channel phase)
          · next awaiting channel =>
              cases step
              rcases finish_changed inv here (.done .closed) trivial with ⟨_, changed, phase⟩
              exact .one changed (.closed awaiting channel phase)
          · cases step
      · cases step
  | cancel c =>
      simp only [Link.step] at step
      split at step
      · next call here =>
          split at step
          · next awaiting =>
              cases step
              rcases finish_changed inv here .cancelled trivial with ⟨_, changed, phase⟩
              exact .one changed (.cancelled awaiting phase)
          · cases step
      · cases step
  | respond id result =>
      simp only [Link.step, Option.some.injEq] at step
      subst step
      split
      · exact .none rfl rfl rfl
      · exact .none rfl rfl rfl
  | frame val =>
      simp only [Link.step] at step
      split at step
      · cases step
      · split at step
        · next id reply own =>
            cases step
            rcases answer_changed inv own with same | ⟨c, call, call', changed, advance⟩
            · rw [same]
              exact .none rfl rfl rfl
            · exact .one changed advance
        · cases step
          exact .none rfl rfl rfl
        · cases step
          exact .none rfl rfl rfl
  | refuse why =>
      simp only [Link.step] at step
      split at step
      · cases step
      · cases step
        have taken := take_taken inv (Call.deliver (refusal why)) (deliver_deliver _)
        exact .taken ⟨taken.pending, taken.nextId, taken.length, taken.ended, taken.stays⟩
          (Or.inr ⟨why, rfl, rfl⟩)
  | readerEnds =>
      cases step
      exact .none rfl rfl rfl
  | writerEnds =>
      cases step
      exact .none rfl rfl rfl
  | cleanup =>
      simp only [Link.step] at step
      split at step
      · cases step
        have taken := take_taken inv Call.hangUp hangUp_hangUp
        exact .taken ⟨taken.pending, taken.nextId, taken.length, taken.ended, taken.stays⟩
          (Or.inl ⟨rfl, rfl⟩)
      · cases step

/-- **Step lemma.**  Every event keeps the invariant. -/
theorem step_inv (inv : link.Inv) (step : link.step write event = some link') : link'.Inv := by
  cases step_effect inv step with
  | none pending calls nextId =>
      refine ⟨?_, ?_, ?_, ?_, ?_⟩
      · rw [nextId, calls, inv.next]
      · rw [calls]
        exact inv.ids
      · rw [calls]
        exact inv.fresh
      · rw [pending, calls]
        exact inv.keyed
      · rw [pending, calls]
        exact inv.torn
  | begun allocated empty own pending calls nextId =>
      rename_i new
      have quiet : ¬ new.Outstanding := fun outstanding => outstanding.not_allocated allocated
      have split : ∀ (c : Nat) (call : Call), link'.calls[c]? = some call →
          link.calls[c]? = some call ∨ (c = link.calls.length ∧ call = new) := by
        intro c call here
        rw [calls, List.getElem?_append] at here
        split at here
        · exact Or.inl here
        · next past =>
            rw [List.getElem?_singleton] at here
            split at here
            · next first =>
                cases here
                exact Or.inr ⟨by omega, rfl⟩
            · cases here
      have kept : ∀ (c : Nat) (call : Call), link.calls[c]? = some call →
          link'.calls[c]? = some call := by
        intro c call here
        rw [calls, List.getElem?_append_left (List.getElem?_eq_some_iff.1 here).1, here]
      refine ⟨?_, ?_, ?_, ?_, ?_⟩
      · rw [nextId, calls, List.length_append, List.length_singleton, inv.next]
      · intro c call here
        rcases split c call here with before | ⟨rfl, rfl⟩
        · exact inv.ids c call before
        · rw [own, inv.next]
      · intro c call here phase
        rcases split c call here with before | ⟨rfl, rfl⟩
        · exact inv.fresh c call before phase
        · exact empty
      · intro map live id c
        rw [pending] at live
        rw [inv.keyed map live id c]
        constructor
        · rintro ⟨same, call, here, outstanding⟩
          exact ⟨same, call, kept c call here, outstanding⟩
        · rintro ⟨same, call, here, outstanding⟩
          rcases split c call here with before | ⟨-, rfl⟩
          · exact ⟨same, call, before, outstanding⟩
          · exact absurd outstanding quiet
      · intro torn c call here
        rw [pending] at torn
        rcases split c call here with before | ⟨-, rfl⟩
        · exact inv.torn torn c call before
        · exact quiet
  | one changed advance => exact changed.inv inv
  | taken taken cause =>
      rcases cause with ⟨-, rfl⟩ | ⟨why, -, rfl⟩
      · exact taken.inv inv hangUp_msgId hangUp_phase hangUp_not_outstanding
      · exact taken.inv inv (deliver_msgId _) (deliver_phase _) (deliver_not_outstanding _)

/-- What a step makes of a call that was there before it. -/
theorem step_advance (inv : link.Inv) (step : link.step write event = some link')
    (here : link.calls[c]? = some call) :
    ∃ call', link'.calls[c]? = some call' ∧ Advance event c call call' := by
  cases step_effect inv step with
  | none pending calls nextId => exact ⟨call, by rw [calls, here], .same⟩
  | begun allocated empty own pending calls nextId =>
      refine ⟨call, ?_, .same⟩
      rw [calls, List.getElem?_append_left (List.getElem?_eq_some_iff.1 here).1, here]
  | one changed advance =>
      rename_i k before after
      by_cases own : c = k
      · subst own
        have same := changed.here
        rw [here] at same
        cases same
        exact ⟨after, changed.here', advance⟩
      · exact ⟨call, by rw [changed.calls, if_neg own, here], .same⟩
  | taken taken cause =>
      by_cases outstanding : call.Outstanding
      · refine ⟨_, taken.ended c call here outstanding, ?_⟩
        rcases cause with ⟨cleaning, rfl⟩ | ⟨why, refusing, rfl⟩
        · exact .hungUp outstanding cleaning
        · exact .refused outstanding refusing
      · exact ⟨call, taken.stays c call here outstanding, .same⟩

/-- A call that a step adds has only drawn its id. -/
theorem step_new (inv : link.Inv) (step : link.step write event = some link')
    (here' : link'.calls[c]? = some call') (absent : link.calls[c]? = none) :
    call'.phase = .allocated ∧ call'.channel = .empty := by
  have grown : link.calls.length ≤ c := List.getElem?_eq_none_iff.1 absent
  have bound : c < link'.calls.length := (List.getElem?_eq_some_iff.1 here').1
  cases step_effect inv step with
  | none pending calls nextId =>
      rw [calls] at bound
      omega
  | begun allocated empty own pending calls nextId =>
      rw [calls, List.getElem?_append_right grown, List.getElem?_singleton] at here'
      split at here'
      · cases here'
        exact ⟨allocated, empty⟩
      · cases here'
  | one changed advance =>
      rw [changed.length] at bound
      omega
  | taken taken cause =>
      rw [taken.length] at bound
      omega

/-! ### Runs -/

/-- Somewhere in the events, `cause` happened to call `c` while it was outstanding. -/
def HappenedTo (write : Value → List UInt8) (events : List Event) (c : Nat)
    (cause : Event → Prop) : Prop :=
  ∃ before event after link call, events = before ++ event :: after ∧
    run (Link.step write) .init before = some link ∧ link.calls[c]? = some call ∧
    call.Outstanding ∧ cause event

theorem HappenedTo.later {cause : Event → Prop} (happened : HappenedTo write events c cause)
    (event : Event) : HappenedTo write (events ++ [event]) c cause := by
  rcases happened with ⟨before, event', after, link, call, rfl, rest⟩
  exact ⟨before, event', after ++ [event], link, call, by simp, rest⟩

/-- The events that write `reply` to a call's channel: a response to its id, or the refusal. -/
def Writes (id : Nat) (reply : Reply) (event : Event) : Prop :=
  (∃ val, event = .frame val ∧ classify val = .response id reply) ∨
    ∃ why, event = .refuse why ∧ reply = refusal why

/-- Where what a call holds comes from. -/
structure Sourced (write : Value → List UInt8) (events : List Event) (c : Nat) (call : Call) :
    Prop where
  held : ¬ call.phase.Over → ∀ reply, call.channel = .sent reply →
    HappenedTo write events c (Writes (c + 1) reply)
  ok : ∀ v, call.phase = .done (.ok v) → HappenedTo write events c (Writes (c + 1) (.ok v))
  error : ∀ e, call.phase = .done (.error e) →
    HappenedTo write events c (Writes (c + 1) (.error e))

/-- One event keeps every call's source. -/
theorem Sourced.step (reached : run (Link.step write) .init events = some link)
    (here : link.calls[c]? = some call) (sourced : Sourced write events c call)
    (advance : Advance event c call call') : Sourced write (events ++ [event]) c call' := by
  have now : ∀ {cause : Event → Prop}, call.Outstanding → cause event →
      HappenedTo write (events ++ [event]) c cause :=
    fun outstanding caused => ⟨events, event, [], link, call, rfl, reached, here, outstanding, caused⟩
  -- A phase that is not `done` has nothing to explain but its channel.
  have carried : ∀ {moved : Call}, ¬ call.phase.Over → moved.channel = call.channel →
      (∀ why, moved.phase ≠ .done why) → Sourced write (events ++ [event]) c moved := by
    intro moved going channel open_phase
    refine ⟨?_, fun v done => absurd done (open_phase _), fun e done => absurd done (open_phase _)⟩
    intro _ reply sent
    rw [channel] at sent
    exact (sourced.held going reply sent).later event
  have written : ∀ {reply : Reply}, call.Outstanding → Writes (c + 1) reply event →
      Sourced write (events ++ [event]) c (call.deliver reply) := by
    intro reply outstanding writes
    have open_phase : ∀ why, call.phase ≠ .done why := by
      intro why done
      exact not_outstanding_of_over (by rw [done]; trivial) outstanding
    refine ⟨?_, fun v done => absurd (deliver_phase reply call ▸ done) (open_phase _),
      fun e done => absurd (deliver_phase reply call ▸ done) (open_phase _)⟩
    intro _ other sent
    rw [Call.deliver, outstanding.unanswered] at sent
    cases sent
    exact now outstanding writes
  cases advance with
  | same =>
      exact ⟨fun going reply sent => (sourced.held going reply sent).later event,
        fun v done => (sourced.ok v done).later event,
        fun e done => (sourced.error e done).later event⟩
  | registered phase channel =>
      exact carried (by rw [phase]; exact id) rfl (fun why same => by cases same)
  | failed early phase reason =>
      refine ⟨fun going => absurd (by rw [phase]; trivial) going, ?_, ?_⟩
      · intro v done
        cases phase.symm.trans done
        rcases reason with same | ⟨_, _, same⟩ <;> cases same
      · intro e done
        cases phase.symm.trans done
        rcases reason with same | ⟨_, _, same⟩ <;> cases same
  | queued phase => exact carried (by rw [phase]; exact id) rfl (fun why same => by cases same)
  | @replied call' reply phase channel phase' =>
      have happened := (sourced.held (by rw [phase]; exact id) _ channel).later event
      refine ⟨fun going => absurd (by rw [phase']; trivial) going, ?_, ?_⟩
      · intro v done
        cases reply with
        | ok v => cases phase'.symm.trans done; exact happened
        | error e => cases phase'.symm.trans done
      · intro e done
        cases reply with
        | ok v => cases phase'.symm.trans done
        | error e => cases phase'.symm.trans done; exact happened
  | closed phase channel phase' =>
      refine ⟨fun going => absurd (by rw [phase']; trivial) going, ?_, ?_⟩
      · intro v done
        cases phase'.symm.trans done
      · intro e done
        cases phase'.symm.trans done
  | cancelled phase phase' =>
      refine ⟨fun going => absurd (by rw [phase']; trivial) going, ?_, ?_⟩
      · intro v done
        cases phase'.symm.trans done
      · intro e done
        cases phase'.symm.trans done
  | answered outstanding framed own =>
      exact written outstanding (Or.inl ⟨_, framed, own⟩)
  | refused outstanding refusing =>
      exact written outstanding (Or.inr ⟨_, refusing, rfl⟩)
  | hungUp outstanding cleaning =>
      have open_phase : ∀ why, call.phase ≠ .done why := by
        intro why done
        exact not_outstanding_of_over (by rw [done]; trivial) outstanding
      refine ⟨?_, fun v done => absurd (hangUp_phase call ▸ done) (open_phase _),
        fun e done => absurd (hangUp_phase call ▸ done) (open_phase _)⟩
      intro _ reply sent
      rw [Call.hangUp, outstanding.unanswered] at sent
      cases sent

/-- **Run lemma.**  In every reachable state the invariant holds and every call's source is in the
events behind it. -/
theorem reachable_sourced (reached : run (Link.step write) .init events = some link) :
    link.Inv ∧ ∀ (c : Nat) (call : Call), link.calls[c]? = some call →
      Sourced write events c call := by
  refine run_history (fun events link => link.Inv ∧ ∀ (c : Nat) (call : Call),
    link.calls[c]? = some call → Sourced write events c call) ?_ ?_ reached
  · refine ⟨Link.init_inv, ?_⟩
    intro c call here
    simp [Link.init] at here
  · rintro events state event next front ⟨inv, sourced⟩ step
    refine ⟨step_inv inv step, ?_⟩
    intro c call' here'
    cases here : state.calls[c]? with
    | some call =>
        rcases step_advance inv step here with ⟨call'', same, advance⟩
        cases here'.symm.trans same
        exact (sourced c call here).step front here advance
    | none =>
        rcases step_new inv step here' here with ⟨allocated, empty⟩
        refine ⟨?_, ?_, ?_⟩
        · intro _ reply sent
          cases empty.symm.trans sent
        · intro v done
          cases allocated.symm.trans done
        · intro e done
          cases allocated.symm.trans done

/-- A call that can only end in an error, or has. -/
def Call.Failing (call : Call) : Prop :=
  (¬ call.phase.Over ∧ (call.channel = .dropped ∨ ∃ e, call.channel = .sent (.error e))) ∨
    (call.phase.Over ∧ ∀ v, call.phase ≠ .done (.ok v))

theorem Call.Failing.advance (failing : call.Failing) (advance : Advance event c call call') :
    call'.Failing := by
  have not_outstanding : ¬ call.Outstanding := by
    rintro ⟨waiting, empty⟩
    rcases failing with ⟨-, closed | ⟨e, sent⟩⟩ | ⟨finished, -⟩
    · cases closed.symm.trans empty
    · cases sent.symm.trans empty
    · exact not_outstanding_of_over finished ⟨waiting, empty⟩
  cases advance with
  | same => exact failing
  | registered phase channel =>
      rcases failing with ⟨-, closed | ⟨e, sent⟩⟩ | ⟨finished, -⟩
      · cases closed.symm.trans channel
      · cases sent.symm.trans channel
      · rw [phase] at finished
        exact absurd finished id
  | failed early phase reason =>
      refine Or.inr ⟨by rw [phase]; trivial, ?_⟩
      intro v done
      cases phase.symm.trans done
      rcases reason with same | ⟨_, _, same⟩ <;> cases same
  | queued phase =>
      rcases failing with ⟨-, held⟩ | ⟨finished, -⟩
      · exact Or.inl ⟨id, held⟩
      · rw [phase] at finished
        exact absurd finished id
  | replied phase channel phase' =>
      refine Or.inr ⟨by rw [phase']; trivial, ?_⟩
      intro v done
      rcases failing with ⟨-, closed | ⟨e, sent⟩⟩ | ⟨finished, -⟩
      · cases closed.symm.trans channel
      · cases sent.symm.trans channel
        cases phase'.symm.trans done
      · rw [phase] at finished
        exact finished
  | closed phase channel phase' =>
      refine Or.inr ⟨by rw [phase']; trivial, ?_⟩
      intro v done
      cases phase'.symm.trans done
  | cancelled phase phase' =>
      refine Or.inr ⟨by rw [phase']; trivial, ?_⟩
      intro v done
      cases phase'.symm.trans done
  | answered outstanding framed own => exact absurd outstanding not_outstanding
  | refused outstanding refusing => exact absurd outstanding not_outstanding
  | hungUp outstanding cleaning => exact absurd outstanding not_outstanding

/-- A call that is over stays as it ended. -/
theorem Advance.over (finished : call.phase.Over) (advance : Advance event c call call') :
    call'.phase = call.phase := by
  have not_open : ∀ {phase : Phase}, call.phase = phase → ¬ phase.Over → call'.phase = call.phase := by
    intro phase same going
    rw [same] at finished
    exact absurd finished going
  cases advance with
  | same => rfl
  | registered phase channel => exact not_open phase id
  | failed early phase reason =>
      rcases early with early | early
      · exact not_open early id
      · exact not_open early id
  | queued phase => exact not_open phase id
  | replied phase channel phase' => exact not_open phase id
  | closed phase channel phase' => exact not_open phase id
  | cancelled phase phase' => exact not_open phase id
  | answered outstanding framed own => exact deliver_phase _ call
  | refused outstanding refusing => exact deliver_phase _ call
  | hungUp outstanding cleaning => exact hangUp_phase call

/-- A torn connection stays torn. -/
theorem step_torn (inv : link.Inv) (torn : link.pending = none)
    (step : link.step write event = some link') : link'.pending = none := by
  cases step_effect inv step with
  | none pending calls nextId => rw [pending, torn]
  | begun allocated empty own pending calls nextId => rw [pending, torn]
  | one changed advance =>
      rcases changed.pending with ⟨-, torn', -⟩ | ⟨_, _, live, -⟩
      · exact torn'
      · cases torn.symm.trans live
  | taken taken cause => exact taken.pending

/-- What every later step keeps of one call, every later run keeps. -/
theorem run_call (Keeps : Call → Prop)
    (keeps : ∀ event c call call', Keeps call → Advance event c call call' → Keeps call')
    (inv : link.Inv) (reached : run (Link.step write) link events = some link')
    (here : link.calls[c]? = some call) (holds : Keeps call) :
    ∃ call', link'.calls[c]? = some call' ∧ Keeps call' := by
  have both := run_invariant (fun link => link.Inv ∧ ∃ call, link.calls[c]? = some call ∧ Keeps call)
    (by
      rintro state event next ⟨inv, call, here, holds⟩ step
      rcases step_advance inv step here with ⟨call', here', advance⟩
      exact ⟨step_inv inv step, call', here',
        keeps event c call call' holds advance⟩)
    ⟨inv, call, here, holds⟩ reached
  exact both.2

/-- The step that tears a connection down leaves its outstanding calls failing. -/
theorem step_tears (inv : link.Inv) (live : link.pending = some map)
    (step : link.step write event = some link') (torn : link'.pending = none)
    (here : link.calls[c]? = some call) (outstanding : call.Outstanding) :
    ∃ call', link'.calls[c]? = some call' ∧ call'.Failing := by
  have going : ¬ call.phase.Over := fun finished => not_outstanding_of_over finished outstanding
  cases step_effect inv step with
  | none pending calls nextId => cases (pending.symm.trans torn).symm.trans live
  | begun allocated empty own pending calls nextId =>
      cases (pending.symm.trans torn).symm.trans live
  | one changed advance =>
      rcases changed.pending with ⟨torn', -, -⟩ | ⟨_, _, -, live', -⟩
      · cases torn'.symm.trans live
      · cases live'.symm.trans torn
  | taken taken cause =>
      refine ⟨_, taken.ended c call here outstanding, Or.inl ?_⟩
      rcases cause with ⟨-, rfl⟩ | ⟨why, -, rfl⟩
      · rw [hangUp_phase, Call.hangUp, outstanding.unanswered]
        exact ⟨going, Or.inl rfl⟩
      · rw [deliver_phase, Call.deliver, outstanding.unanswered]
        exact ⟨going, Or.inr ⟨_, rfl⟩⟩

/-- A response to an outstanding call's id reaches that call's channel. -/
theorem frame_answers (write : Value → List UInt8) (inv : link.Inv)
    (here : link.calls[c]? = some call) (outstanding : call.Outstanding) {val : Value}
    (own : classify val = .response call.msgId reply) (reading : link.readerGone = false) :
    ∃ link' call', link.step write (.frame val) = some link' ∧ link'.calls[c]? = some call' ∧
      call'.channel = .sent reply := by
  have delivered : (call.deliver reply).channel = .sent reply := by
    rw [Call.deliver, outstanding.unanswered]
  refine ⟨link.answer call.msgId reply, call.deliver reply, ?_, ?_, delivered⟩
  · simp only [Link.step, reading, own, Bool.false_eq_true, if_false]
  · rw [inv.ids c call here]
    cases live : link.pending with
    | none => exact absurd outstanding (inv.torn live c call here)
    | some map =>
        simp only [Link.answer, live, (inv.lookup live here).1 outstanding]
        rw [getElem?_modify_of here, if_pos rfl]

/-- Over, or with nothing but `reply` to return. -/
def Call.Settled (reply : Reply) (call : Call) : Prop :=
  call.phase.Over ∨ call.channel = .sent reply

theorem Call.Settled.advance (settled : call.Settled reply) (advance : Advance event c call call') :
    call'.Settled reply := by
  have not_outstanding : ¬ call.Outstanding := by
    rintro ⟨waiting, empty⟩
    rcases settled with finished | sent
    · exact not_outstanding_of_over finished ⟨waiting, empty⟩
    · cases sent.symm.trans empty
  cases advance with
  | same => exact settled
  | registered phase channel =>
      rcases settled with finished | sent
      · rw [phase] at finished
        exact absurd finished id
      · exact Or.inr sent
  | failed early phase reason => exact Or.inl (by rw [phase]; trivial)
  | queued phase =>
      rcases settled with finished | sent
      · rw [phase] at finished
        exact absurd finished id
      · exact Or.inr sent
  | replied phase channel phase' => exact Or.inl (by rw [phase']; trivial)
  | closed phase channel phase' => exact Or.inl (by rw [phase']; trivial)
  | cancelled phase phase' => exact Or.inl (by rw [phase']; trivial)
  | answered outstanding framed own => exact absurd outstanding not_outstanding
  | refused outstanding refusing => exact absurd outstanding not_outstanding
  | hungUp outstanding cleaning => exact absurd outstanding not_outstanding

/-- An awaiting call that was sent a reply returns it when it is polled. -/
theorem resume_sent (write : Value → List UInt8) (inv : link.Inv)
    (here : link.calls[c]? = some call) (awaiting : call.phase = .awaiting)
    (sent : call.channel = .sent reply) :
    ∃ link' call', link.step write (.resume c) = some link' ∧
      link'.calls[c]? = some call' ∧ call'.phase = .done (.of reply) := by
  rcases finish_changed inv here (.done (.of reply)) trivial with ⟨call', changed, phase⟩
  cases reply with
  | ok v => exact ⟨_, call', by simp only [Link.step, here, awaiting, sent, Resolution.of], changed.here', phase⟩
  | error e =>
      exact ⟨_, call', by simp only [Link.step, here, awaiting, sent, Resolution.of], changed.here', phase⟩

/-- An awaiting call whose channel is ready resolves when it is polled. -/
theorem resume_ready (inv : link.Inv) (here : link.calls[c]? = some call)
    (awaiting : call.phase = .awaiting) (ready : call.channel ≠ .empty) :
    ∃ link' call' why, link.step write (.resume c) = some link' ∧
      link'.calls[c]? = some call' ∧ call'.phase = .done why := by
  cases channel : call.channel with
  | empty => exact absurd channel ready
  | sent reply =>
      rcases resume_sent write inv here awaiting channel with
        ⟨link', call', step, here', phase⟩
      exact ⟨link', call', _, step, here', phase⟩
  | dropped =>
      rcases finish_changed inv here (.done .closed) trivial with ⟨call', changed, phase⟩
      exact ⟨_, call', _, by simp only [Link.step, here, awaiting, channel], changed.here', phase⟩

/-- A refusal, and the cleanup task, take the map. -/
theorem step_closes (inv : link.Inv) (closing : event = .cleanup ∨ ∃ why, event = .refuse why)
    (step : link.step write event = some link') : link'.pending = none := by
  rcases closing with rfl | ⟨why, rfl⟩
  · simp only [Link.step] at step
    split at step
    · cases step
      exact (take_taken inv Call.hangUp hangUp_hangUp).pending
    · cases step
  · simp only [Link.step] at step
    split at step
    · cases step
    · cases step
      exact (take_taken inv _ (deliver_deliver (refusal why))).pending

/-- A call that registers with a torn connection fails there. -/
theorem register_torn (torn : link.pending = none)
    (step : link.step write (.register c) = some link') :
    ∃ call', link'.calls[c]? = some call' ∧ call'.phase = .done .closed := by
  simp only [Link.step] at step
  split at step
  · next call here =>
      split at step
      · cases step
        refine ⟨call.moveTo (.done .closed), ?_, rfl⟩
        simp only [Link.register, torn]
        rw [getElem?_modify_of here, if_pos rfl]
      · cases step
  · cases step

/-- **Requests are answered once, by their own response.**  After any events of a connection: the
map holds exactly the outstanding calls under their ids; a call that returned a value, or the
peer's error, was outstanding when a response to its id brought it; a call that is over stays as
it ended; a response to an outstanding call's id is what that call returns, if it is polled; a
refusal and the cleanup task tear the connection down, and the cleanup task can run once either
half is gone; a teardown leaves every outstanding call with nothing but an error to return, once
polled; and a torn connection stays torn and fails every later call where it registers. -/
theorem request_answered_once (write : Value → List UInt8) (events : List Event) (link : Link)
    (reached : run (Link.step write) .init events = some link) :
    (∀ map, link.pending = some map → ∀ id c, map.lookup id = some c ↔
      ∃ call, link.calls[c]? = some call ∧ call.msgId = id ∧ call.Outstanding) ∧
    (∀ (c : Nat) (call : Call), link.calls[c]? = some call →
      (∀ v, call.phase = .done (.ok v) → HappenedTo write events c fun event =>
        ∃ val, event = .frame val ∧ classify val = .response call.msgId (.ok v)) ∧
      (∀ e, call.phase = .done (.error e) → HappenedTo write events c fun event =>
        (∃ val, event = .frame val ∧ classify val = .response call.msgId (.error e)) ∨
          ∃ why, event = .refuse why ∧ Except.error e = refusal why) ∧
      ∀ later link', run (Link.step write) link later = some link' →
        ∃ call', link'.calls[c]? = some call' ∧
          (call.phase.Over → call'.phase = call.phase)) ∧
    (∀ (c : Nat) (call : Call) val reply, link.calls[c]? = some call → call.Outstanding →
      classify val = .response call.msgId reply → link.readerGone = false →
        ∃ link', link.step write (.frame val) = some link' ∧
          ∀ later link'', run (Link.step write) link' later = some link'' →
            ∃ call', link''.calls[c]? = some call' ∧ call'.Settled reply ∧
              (call'.phase = .awaiting → ∃ last ended, link''.step write (.resume c) = some last ∧
                last.calls[c]? = some ended ∧ ended.phase = .done (.of reply))) ∧
    (∀ event link', event = .cleanup ∨ (∃ why, event = .refuse why) →
      link.step write event = some link' → link'.pending = none) ∧
    (link.readerGone ∨ link.writerGone → ∃ link', link.step write .cleanup = some link') ∧
    (∀ event link' map, link.pending = some map → link.step write event = some link' →
      link'.pending = none → ∀ (c : Nat) (call : Call), link.calls[c]? = some call →
        call.Outstanding → ∀ later link'', run (Link.step write) link' later = some link'' →
          ∃ call', link''.calls[c]? = some call' ∧ ∀ v, call'.phase ≠ .done (.ok v)) ∧
    (link.pending = none →
      (∀ later link', run (Link.step write) link later = some link' → link'.pending = none) ∧
      (∀ (c : Nat) (call : Call), link.calls[c]? = some call → call.phase = .awaiting →
        ∃ link' call' why, link.step write (.resume c) = some link' ∧
          link'.calls[c]? = some call' ∧ call'.phase = .done why) ∧
      ∀ c link', link.step write (.register c) = some link' →
        ∃ call', link'.calls[c]? = some call' ∧ call'.phase = .done .closed) := by
  rcases reachable_sourced reached with ⟨inv, sourced⟩
  refine ⟨?_, ?_, ?_, fun _ _ => step_closes inv, ?_, ?_, ?_⟩
  · intro map live id c
    rw [inv.keyed map live]
    constructor
    · rintro ⟨rfl, call, here, outstanding⟩
      exact ⟨call, here, inv.ids c call here, outstanding⟩
    · rintro ⟨call, here, rfl, outstanding⟩
      exact ⟨inv.ids c call here, call, here, outstanding⟩
  · intro c call here
    rw [inv.ids c call here]
    refine ⟨?_, (sourced c call here).error, ?_⟩
    · intro v done
      rcases (sourced c call here).ok v done with
        ⟨before, event, after, link₁, call₁, split, front, at_c, outstanding, writes⟩
      rcases writes with response | ⟨why, -, same⟩
      · exact ⟨before, event, after, link₁, call₁, split, front, at_c, outstanding, response⟩
      · cases same
    · intro later link' run_later
      by_cases finished : call.phase.Over
      · have keeps : ∀ event k (moved moved' : Call), moved.phase = call.phase →
            Advance event k moved moved' → moved'.phase = call.phase := by
          intro event k moved moved' same advance
          rw [← same] at finished
          exact (advance.over finished).trans same
        rcases run_call (fun moved => moved.phase = call.phase) keeps inv run_later here rfl with
          ⟨call', here', same⟩
        exact ⟨call', here', fun _ => same⟩
      · rcases run_call (fun _ => True) (fun _ _ _ _ _ _ => trivial) inv run_later here
          trivial with ⟨call', here', -⟩
        exact ⟨call', here', fun finished' => absurd finished' finished⟩
  · intro c call val reply here outstanding own reading
    rcases frame_answers write inv here outstanding own reading with
      ⟨link', call', step, here', sent⟩
    refine ⟨link', step, ?_⟩
    intro later link'' run_later
    have inv' := step_inv inv step
    rcases run_call (Call.Settled reply) (fun _ _ _ _ settled advance => settled.advance advance)
      inv' run_later here' (Or.inr sent) with ⟨call'', here'', settled⟩
    refine ⟨call'', here'', settled, ?_⟩
    intro awaiting
    refine resume_sent write (run_invariant Link.Inv (fun _ _ _ => step_inv) inv' run_later) here''
      awaiting (settled.resolve_left ?_)
    rw [awaiting]
    exact id
  · intro gone
    have awake : (link.readerGone || link.writerGone) = true := by
      rw [Bool.or_eq_true]
      exact gone
    exact ⟨_, by rw [Link.step, if_pos awake]⟩
  · intro event link' map live step torn c call here outstanding later link'' run_later
    rcases step_tears inv live step torn here outstanding with ⟨call', here', failing⟩
    rcases run_call Call.Failing
      (fun _ _ _ _ failing advance => failing.advance advance)
      (step_inv inv step) run_later here' failing with ⟨call'', here'', failing'⟩
    refine ⟨call'', here'', ?_⟩
    intro v done
    rcases failing' with ⟨going, -⟩ | ⟨-, other⟩
    · exact going (by rw [done]; trivial)
    · exact other v done
  · intro torn
    refine ⟨?_, ?_, ?_⟩
    · intro later link' run_later
      exact (run_invariant (fun link => link.Inv ∧ link.pending = none)
        (fun _ _ _ both step => ⟨step_inv both.1 step, step_torn both.1 both.2 step⟩)
        ⟨inv, torn⟩ run_later).2
    · intro c call here awaiting
      apply resume_ready inv here awaiting
      intro empty
      exact inv.torn torn c call here ⟨Or.inr awaiting, empty⟩
    · intro c link' step
      exact register_torn torn step

/-- The frame of a first request `m()`. -/
def firstRequest : List UInt8 := [0x94, 0x00, 0x01, 0xa1, 0x6d, 0x90]

/-- A request, its response, and a second response to the same id. -/
def answeredRun : List Event :=
  [.begin "m" [], .register 0, .transmit 0, .frame (.array [.int 1, .int 1, .nil, .int 7]),
    .frame (.array [.int 1, .int 1, .nil, .int 8]), .resume 0]

/-- The first response is the answer. -/
theorem request_answered_once_first :
    ∃ link call, run (Link.step fun _ => firstRequest) .init answeredRun = some link ∧
      link.calls[0]? = some call ∧ call.phase = .done (.ok (.int 7)) ∧
      HappenedTo (fun _ => firstRequest) answeredRun 0 fun event =>
        ∃ val, event = .frame val ∧ classify val = .response call.msgId (.ok (.int 7)) := by
  have reached : ∃ link call, run (Link.step fun _ => firstRequest) .init answeredRun = some link ∧
      link.calls[0]? = some call ∧ call.phase = .done (.ok (.int 7)) :=
    ⟨_, _, rfl, rfl, rfl⟩
  rcases reached with ⟨link, call, reached, here, done⟩
  exact ⟨link, call, reached, here, done,
    ((request_answered_once _ _ link reached).2.1 0 call here).1 _ done⟩

end Bemtvi.Rpc
