/-
Module: Bemtvi.Core.SnippetMirrors
Purpose: The places of one tabstop number cover the same text exactly when the defaults given for it
  read the same and no default that a bare tabstop shows was rendered before what it mentions.
Trusted boundary: kernel-checked laws of the snippets
Main exports: Nodes.word, carriers, bares, Settled, Settled.read_eq, Mirrors, mirrors_agree_iff
-/
import Bemtvi.Core.SnippetLaws

namespace Bemtvi.Core.Snippet

open Utf8

/-! ### Words -/

/-- What a default reads: its characters, and the numbers that stand bare in it. -/
abbrev Word := List (Char ⊕ UInt32)

def Nodes.word : Nodes → Word
  | .nil => []
  | .text literal rest => literal.map .inl ++ rest.word
  | .stop index body choices rest =>
      (match choices with
        | first :: _ => first.map .inl
        | [] => if body = Nodes.nil then [.inr index] else body.word) ++ rest.word

/-- A word with the numbers' texts put in. -/
def read (defaults : Defaults) (word : Word) : Text :=
  word.flatMap (Sum.elim (fun c => [c]) fun index => (defaults index).getD [])

/-- What a tabstop carries of its own; `none` for a bare one. -/
def content (body : Nodes) (choices : List Text) : Option Word :=
  match choices with
  | first :: _ => some (first.map .inl)
  | [] => if body = Nodes.nil then none else some body.word

/-- The numbers that carry something, in the order of the body. -/
def carriers : Nodes → List (UInt32 × Word)
  | .nil => []
  | .text _ rest => carriers rest
  | .stop index body choices rest =>
      (content body choices).toList.map (fun word => (index, word)) ++ carriers body ++ carriers rest

/-- The numbers that stand bare. -/
def bares : Nodes → List UInt32
  | .nil => []
  | .text _ rest => bares rest
  | .stop index body choices rest =>
      (if content body choices = none then [index] else []) ++ bares body ++ bares rest

theorem read_append (defaults : Defaults) (front back : Word) :
    read defaults (front ++ back) = read defaults front ++ read defaults back :=
  List.flatMap_append

theorem read_literal (defaults : Defaults) (literal : Text) :
    read defaults (literal.map .inl) = literal := by
  induction literal with
  | nil => rfl
  | cons c literal ih =>
      rw [List.map_cons, read, List.flatMap_cons]
      exact congrArg (c :: ·) ih

theorem word_stop (index : UInt32) (body : Nodes) (choices : List Text) (rest : Nodes) :
    (Nodes.stop index body choices rest).word =
      (match choices with
        | first :: _ => first.map .inl
        | [] => if body = Nodes.nil then [.inr index] else body.word) ++ rest.word := rfl

theorem renderDefault_eq (defaults : Defaults) (nodes : Nodes) :
    renderDefault defaults nodes = read defaults nodes.word := by
  induction nodes with
  | nil => rfl
  | text literal rest ih => rw [renderDefault, Nodes.word, read_append, read_literal, ih]
  | stop index body choices rest ih_body ih =>
      rw [renderDefault_stop, word_stop, read_append, ih]
      congr 1
      cases choices with
      | cons first more => exact (read_literal defaults first).symm
      | nil =>
          by_cases empty : body = Nodes.nil
          · simp [ownText, empty, read]
          · simp only [ownText, if_neg empty, ih_body]

/-- The text a tabstop is laid out as, by what it carries. -/
theorem ownText_eq (defaults : Defaults) (index : UInt32) (body : Nodes) (choices : List Text) :
    ownText defaults index body choices =
      (content body choices).elim ((defaults index).getD []) (read defaults) := by
  cases choices with
  | cons first more => exact (read_literal defaults first).symm
  | nil =>
      by_cases empty : body = Nodes.nil
      · simp [ownText, content, empty]
      · simp [ownText, content, empty, renderDefault_eq]

/-! ### The table of defaults -/

/-- The first that carries something decides, read with the table there is. -/
def tableFrom (defaults : Defaults) (given : List (UInt32 × Word)) : Defaults :=
  given.foldl (fun defaults entry => defaults.orInsert entry.1 (read defaults entry.2)) defaults

theorem resolveDefaults_eq (nodes : Nodes) (defaults : Defaults) :
    resolveDefaults nodes defaults = tableFrom defaults (carriers nodes) := by
  induction nodes generalizing defaults with
  | nil => rfl
  | text literal rest ih => exact ih defaults
  | stop index body choices rest ih_body ih =>
      simp only [resolveDefaults, carriers, tableFrom, List.foldl_append, ih, ih_body]
      cases choices with
      | cons first more =>
          simp [content, read_literal]
      | nil =>
          by_cases empty : body = Nodes.nil
          · simp [content, empty]
          · simp [content, empty, renderDefault_eq]

theorem orInsert_self (defaults : Defaults) (index : UInt32) (text : Text) :
    defaults.orInsert index text index = some ((defaults index).getD text) :=
  Function.update_self ..

theorem orInsert_of_ne {index other : UInt32} (differ : other ≠ index) (defaults : Defaults)
    (text : Text) : defaults.orInsert index text other = defaults other :=
  Function.update_of_ne differ ..

variable {defaults : Defaults} {given after before : List (UInt32 × Word)} {word : Word}
  {α : Type} {P : α → Prop} {outcome : Outcome α} {nodes : Nodes} {occurrence : Occurrence}
  {entry : UInt32 × Word}

/-- What a number has stays. -/
theorem tableFrom_some {index : UInt32} {text : Text} (given : List (UInt32 × Word))
    (known : defaults index = some text) : tableFrom defaults given index = some text := by
  induction given generalizing defaults with
  | nil => exact known
  | cons entry given ih =>
      apply ih
      show defaults.orInsert entry.1 (read defaults entry.2) index = some text
      by_cases same : index = entry.1
      · rw [same, orInsert_self, ← same, known]
        rfl
      · rw [orInsert_of_ne same, known]

/-- A number that nothing is given for keeps none. -/
theorem tableFrom_none {index : UInt32} (absent : index ∉ given.map Prod.fst) :
    tableFrom defaults given index = defaults index := by
  induction given generalizing defaults with
  | nil => rfl
  | cons entry given ih =>
      rw [List.map_cons, List.mem_cons, not_or] at absent
      exact (ih absent.2).trans (orInsert_of_ne absent.1 _ _)

/-- The first entry for a number decides its text. -/
theorem tableFrom_first {index : UInt32} (none_yet : defaults index = none)
    (first : index ∉ before.map Prod.fst) :
    tableFrom defaults (before ++ (index, word) :: after) index =
      some (read (tableFrom defaults before) word) := by
  rw [tableFrom, List.foldl_append, List.foldl_cons]
  apply tableFrom_some
  have still_none : tableFrom defaults before index = none :=
    (tableFrom_none first).trans none_yet
  exact (orInsert_self ..).trans (congrArg (fun known : Option Text =>
    some (known.getD (read (tableFrom defaults before) word))) still_none)

/-- The defaults of a tree. -/
def table (nodes : Nodes) : Defaults := tableFrom (fun _ => none) (carriers nodes)

/-- A table with fewer texts reads a word alike exactly when the others are empty. -/
theorem read_eq_iff {fewer : Defaults} (within : ∀ index, fewer index = none ∨
    fewer index = defaults index) (word : Word) : read fewer word = read defaults word ↔
      ∀ index, .inr index ∈ word → fewer index = none → (defaults index).getD [] = [] := by
  have shorter (word : Word) : (read fewer word).length ≤ (read defaults word).length := by
    induction word with
    | nil => exact Nat.le_refl 0
    | cons letter word ih =>
        simp only [read, List.flatMap_cons, List.length_append] at ih ⊢
        rcases letter with c | index
        · exact Nat.add_le_add_left ih _
        · rcases within index with none_ | same
          · simp only [Sum.elim_inr, none_, Option.getD_none, List.length_nil]
            omega
          · simp only [Sum.elim_inr, same]
            omega
  induction word with
  | nil => simp [read]
  | cons letter word ih =>
      simp only [read, List.flatMap_cons] at ih shorter ⊢
      rcases letter with c | index
      · simp only [Sum.elim_inl, List.cons_append, List.nil_append, List.cons.injEq, true_and, ih,
          List.mem_cons, reduceCtorEq, false_or]
      · rcases within index with none_ | same
        · simp only [Sum.elim_inr, none_, Option.getD_none, List.nil_append, List.mem_cons,
            Sum.inr.injEq]
          constructor
          · intro equal
            have length_eq := congrArg List.length equal
            rw [List.length_append] at length_eq
            have := shorter word
            have empty : (defaults index).getD [] = [] := List.eq_nil_of_length_eq_zero (by omega)
            rw [empty, List.nil_append] at equal
            rintro other (rfl | member) other_none
            · exact empty
            · exact ih.1 equal other member other_none
          · intro blank
            rw [blank index (.inl rfl) none_, List.nil_append]
            exact ih.2 fun other member => blank other (.inr member)
        · simp only [Sum.elim_inr, same, List.append_cancel_left_eq, ih, List.mem_cons,
            Sum.inr.injEq]
          constructor
          · rintro blank other (rfl | member) other_none
            · rw [← same, other_none]
              rfl
            · exact blank other member other_none
          · intro blank other member
            exact blank other (.inr member)

/-! ### Trees that are parsed -/

/-- A tabstop with choices has no body. -/
def Nodes.Tidy : Nodes → Prop
  | .nil => True
  | .text _ rest => rest.Tidy
  | .stop _ body choices rest => (choices ≠ [] → body = Nodes.nil) ∧ body.Tidy ∧ rest.Tidy

/-- What is given, if anything is, is as said. -/
def Outcome.Gives {α : Type} (P : α → Prop) : Outcome α → Prop
  | .ok value => P value
  | .error _ => True
  | .panicked => True

theorem Outcome.Gives.bind {β : Type} {Q : β → Prop} {next : α → Outcome β}
    (gives : outcome.Gives P) (after : ∀ value, P value → (next value).Gives Q) :
    (outcome.bind next).Gives Q := by
  cases outcome with
  | ok value => exact after value gives
  | error what => trivial
  | panicked => trivial

theorem Outcome.Gives.map {β : Type} {Q : β → Prop} {f : α → β} (gives : outcome.Gives P)
    (after : ∀ value, P value → Q (f value)) : (outcome.map f).Gives Q :=
  gives.bind after

theorem Outcome.gives_any (outcome : Outcome α) : outcome.Gives fun _ => True := by
  cases outcome <;> trivial

/-- A tabstop of which the body and the choices are not both there. -/
def Stop.Tidy (stop : Stop) : Prop := (stop.choices ≠ [] → stop.body = Nodes.nil) ∧ stop.body.Tidy

theorem stop_tidy_bare (index : UInt32) (choices : List Text) :
    (⟨index, .nil, choices⟩ : Stop).Tidy := ⟨fun _ => rfl, trivial⟩

theorem parseBraced_tidy {nodes : List UInt8 → Outcome (Nodes × List UInt8)}
    (tidy : ∀ bytes, (nodes bytes).Gives fun given => given.1.Tidy) (bytes : List UInt8) :
    (parseBraced nodes bytes).Gives fun given => given.1.Tidy := by
  rw [parseBraced]
  split
  · rcases parseInt bytes with ⟨index, _ | ⟨b, rest⟩⟩
    · trivial
    · dsimp only
      split
      · exact stop_tidy_bare index []
      · split
        · apply (tidy rest).bind
          intro given body_tidy
          apply (Outcome.gives_any _).map
          intro rest _
          exact ⟨fun some_choice => absurd rfl some_choice, body_tidy⟩
        · split
          · apply (Outcome.gives_any _).map
            intro given _
            exact stop_tidy_bare index _
          · split
            · trivial
            · trivial
  · trivial

theorem parseDollar_tidy {nodes : List UInt8 → Outcome (Nodes × List UInt8)}
    (tidy : ∀ bytes, (nodes bytes).Gives fun given => given.1.Tidy) (bytes : List UInt8) :
    (parseDollar nodes bytes).Gives fun given => given.1.Tidy := by
  rcases bytes with _ | ⟨b, rest⟩
  · trivial
  · rw [parseDollar]
    split
    · exact parseBraced_tidy tidy rest
    · split
      · exact stop_tidy_bare _ []
      · trivial

theorem flush_tidy (tidy : nodes.Tidy) (lit : Text) : (flush lit nodes).Tidy := by
  unfold flush
  split
  · exact tidy
  · exact tidy

theorem nil_tidy : Nodes.nil.Tidy := trivial

theorem parseNodes_tidy (steps : Nat) (inBrace : Bool) (lit : Text) (bytes : List UInt8) :
    (parseNodes steps inBrace lit bytes).Gives fun given => given.1.Tidy := by
  induction steps generalizing inBrace lit bytes with
  | zero => trivial
  | succ steps ih =>
      rcases bytes with _ | ⟨c, rest⟩
      · exact flush_tidy nil_tidy lit
      · rw [parseNodes]
        split
        · exact flush_tidy nil_tidy lit
        · split
          · dsimp only
            split
            · exact ih _ _ _
            · exact ih _ _ _
          · split
            · apply (parseDollar_tidy (fun bytes => ih true [] bytes) rest).bind
              intro given stop_tidy
              apply (ih inBrace [] given.2).map
              intro more more_tidy
              have whole : (Nodes.stop given.1.index given.1.body given.1.choices more.1).Tidy :=
                ⟨stop_tidy.1, stop_tidy.2, more_tidy⟩
              exact flush_tidy whole lit
            · split
              · exact ih _ _ _
              · trivial

theorem parseTree_tidy (src : List UInt8) : (parseTree src).Gives Nodes.Tidy := by
  apply (parseNodes_tidy _ false [] src).bind
  rintro ⟨nodes, rest⟩ tidy
  dsimp only
  split
  · exact tidy
  · trivial

/-! ### The texts of a number -/

/-- The texts that a number's places cover are those it carries, and its default where it is bare. -/
theorem occurrence_text_iff (tidy : nodes.Tidy) {base : Nat} {index : UInt32} {text : Text} :
    (∃ occurrence ∈ occurrences defaults base nodes,
        occurrence.index = index ∧ occurrence.text = text) ↔
      (index ∈ bares nodes ∧ text = (defaults index).getD []) ∨
        ∃ word, (index, word) ∈ carriers nodes ∧ text = read defaults word := by
  induction nodes generalizing base with
  | nil => simp [occurrences, bares, carriers]
  | text literal rest ih => exact ih tidy
  | stop number body choices rest ih_body ih =>
      obtain ⟨no_body, tidy_body, tidy_rest⟩ := tidy
      have inner : (∃ occurrence ∈ (if choices = [] then occurrences defaults base body else []),
          occurrence.index = index ∧ occurrence.text = text) ↔
            (index ∈ bares body ∧ text = (defaults index).getD []) ∨
              ∃ word, (index, word) ∈ carriers body ∧ text = read defaults word := by
        by_cases bare : choices = []
        · rw [if_pos bare]
          exact ih_body tidy_body
        · rw [if_neg bare, no_body bare]
          simp [bares, carriers]
      have here : (number = index ∧ ownText defaults number body choices = text) ↔
          (index ∈ (if content body choices = none then [number] else []) ∧
            text = (defaults index).getD []) ∨
            ∃ word, (index, word) ∈ (content body choices).toList.map (fun word => (number, word)) ∧
              text = read defaults word := by
        rw [ownText_eq]
        rcases content body choices with _ | word
        · simp only [Option.elim_none, if_true, List.mem_singleton, Option.toList_none,
            List.map_nil, List.not_mem_nil, false_and, exists_false, or_false]
          constructor
          · rintro ⟨rfl, rfl⟩
            exact ⟨rfl, rfl⟩
          · rintro ⟨rfl, rfl⟩
            exact ⟨rfl, rfl⟩
        · simp only [Option.elim_some, reduceCtorEq, if_false, List.not_mem_nil, false_and, false_or,
            Option.toList_some, List.map_cons, List.map_nil, List.mem_singleton, Prod.mk.injEq]
          constructor
          · rintro ⟨rfl, rfl⟩
            exact ⟨word, ⟨rfl, rfl⟩, rfl⟩
          · rintro ⟨word', ⟨rfl, rfl⟩, rfl⟩
            exact ⟨rfl, rfl⟩
      have split : (∃ occurrence ∈ occurrences defaults base (.stop number body choices rest),
          occurrence.index = index ∧ occurrence.text = text) ↔
            (∃ occurrence ∈ (if choices = [] then occurrences defaults base body else []),
              occurrence.index = index ∧ occurrence.text = text) ∨
            (number = index ∧ ownText defaults number body choices = text) ∨
            ∃ occurrence ∈ occurrences defaults (base + size (ownText defaults number body choices))
              rest, occurrence.index = index ∧ occurrence.text = text := by
        simp only [occurrences, List.mem_append, or_and_right, exists_or, List.exists_mem_cons_iff]
      rw [split, inner, here, ih tidy_rest]
      constructor
      · rintro ((⟨member, same⟩ | ⟨word, member, same⟩) | (⟨member, same⟩ | ⟨word, member, same⟩) |
          (⟨member, same⟩ | ⟨word, member, same⟩))
        · exact .inl ⟨List.mem_append_left _ (List.mem_append_right _ member), same⟩
        · exact .inr ⟨word, List.mem_append_left _ (List.mem_append_right _ member), same⟩
        · exact .inl ⟨List.mem_append_left _ (List.mem_append_left _ member), same⟩
        · exact .inr ⟨word, List.mem_append_left _ (List.mem_append_left _ member), same⟩
        · exact .inl ⟨List.mem_append_right _ member, same⟩
        · exact .inr ⟨word, List.mem_append_right _ member, same⟩
      · rintro (⟨member, same⟩ | ⟨word, member, same⟩)
        · rcases List.mem_append.1 member with member | member
          · rcases List.mem_append.1 member with member | member
            · exact .inr (.inl (.inl ⟨member, same⟩))
            · exact .inl (.inl ⟨member, same⟩)
          · exact .inr (.inr (.inl ⟨member, same⟩))
        · rcases List.mem_append.1 member with member | member
          · rcases List.mem_append.1 member with member | member
            · exact .inr (.inl (.inr ⟨word, member, same⟩))
            · exact .inl (.inr ⟨word, member, same⟩)
          · exact .inr (.inr (.inr ⟨word, member, same⟩))

/-! ### Agreement -/

/-- The spans of every stop cover one text, that of the first of its number to carry something. -/
def Mirrors (nodes : Nodes) (parsed : ParsedSnippet) : Prop :=
  ∀ stop ∈ parsed.stops, ∃ piece, (∀ span ∈ stop.spans, Covers parsed.text span piece) ∧
    ∀ before word after, carriers nodes = before ++ (stop.index, word) :: after →
      stop.index ∉ before.map Prod.fst → piece = read (table nodes) word

/-- What is given for a number reads the same each time; and where a number stands bare, the first that
is given for it mentions none bare, of those that nothing was given for before it, that has a text. -/
structure Settled (nodes : Nodes) : Prop where
  alike : ∀ index a b, (index, a) ∈ carriers nodes → (index, b) ∈ carriers nodes →
    read (table nodes) a = read (table nodes) b
  early : ∀ index ∈ bares nodes, ∀ before word after,
    carriers nodes = before ++ (index, word) :: after → index ∉ before.map Prod.fst →
      ∀ other, .inr other ∈ word → other ∉ before.map Prod.fst →
        (table nodes other).getD [] = []

theorem Covers.unique {text : Text} {span : Span} {a b : Text} (first : Covers text span a)
    (second : Covers text span b) : a = b := by
  obtain ⟨front, back, whole, span_eq⟩ := first
  obtain ⟨front', back', whole', span_eq'⟩ := second
  rw [span_eq'] at span_eq
  simp only [Prod.mk.injEq] at span_eq
  have fronts := cut_eq_some.2 (⟨by rw [whole, List.append_assoc], rfl⟩ :
    text = front ++ (a ++ back) ∧ size front = size front)
  have fronts' := cut_eq_some.2 (⟨by rw [whole', List.append_assoc], span_eq.1⟩ :
    text = front' ++ (b ++ back') ∧ size front' = size front)
  rw [fronts] at fronts'
  simp only [Option.some.injEq, Prod.mk.injEq] at fronts'
  have pieces := cut_eq_some.2 (⟨rfl, rfl⟩ : a ++ back = a ++ back ∧ size a = size a)
  have pieces' := cut_eq_some.2 (⟨fronts'.2, by omega⟩ : a ++ back = b ++ back' ∧ size b = size a)
  rw [pieces] at pieces'
  simp only [Option.some.injEq, Prod.mk.injEq] at pieces'
  exact pieces'.1

theorem found_covers (member : occurrence ∈ found nodes) :
    Covers (laidOut nodes).text occurrence.span occurrence.text := by
  obtain ⟨front, back, whole, span_eq⟩ := occurrences_covers member
  rw [laidOut_text]
  refine ⟨front, back, whole, ?_⟩
  rw [span_eq, Nat.zero_add]

/-- Every occurrence is among the spans of its number's stop. -/
theorem stop_of_found (member : occurrence ∈ found nodes) :
    ∃ stop ∈ (laidOut nodes).stops, stop.index = occurrence.index ∧
      occurrence.span ∈ stop.spans := by
  obtain ⟨spans, entry, listed⟩ : Listed (pushAll [] (found nodes)) occurrence.index
      occurrence.span := listed_pushAll.2 (.inr ⟨occurrence, member, rfl, rfl⟩)
  rw [← laidOut_spans] at entry
  refine ⟨_, (List.mem_insertionSort _).2 (List.mem_map.2 ⟨_, entry, rfl⟩), rfl, ?_⟩
  exact (List.mem_insertionSort _).2 listed

theorem stop_unique {a b : TabStop} (first : a ∈ (laidOut nodes).stops)
    (second : b ∈ (laidOut nodes).stops) (same : a.index = b.index) : a = b :=
  List.inj_on_of_nodup_map (laidOut_nodup nodes) first second same

/-- The tabstops of one number are laid out as one text. -/
def TextsAgree (nodes : Nodes) : Prop :=
  ∀ a ∈ found nodes, ∀ b ∈ found nodes, a.index = b.index → a.text = b.text

theorem resolved_eq (nodes : Nodes) : (resolveDefaults nodes fun _ => none) = table nodes :=
  resolveDefaults_eq nodes _

theorem found_text_iff (tidy : nodes.Tidy) {index : UInt32} {text : Text} :
    (∃ occurrence ∈ found nodes, occurrence.index = index ∧ occurrence.text = text) ↔
      (index ∈ bares nodes ∧ text = (table nodes index).getD []) ∨
        ∃ word, (index, word) ∈ carriers nodes ∧ text = read (table nodes) word := by
  rw [found, resolved_eq]
  exact occurrence_text_iff tidy

theorem mirrors_iff (tidy : nodes.Tidy) : Mirrors nodes (laidOut nodes) ↔ TextsAgree nodes := by
  constructor
  · intro mirrors a a_found b b_found same
    obtain ⟨stop, member, index_eq, listed⟩ := stop_of_found a_found
    obtain ⟨stop', member', index_eq', listed'⟩ := stop_of_found b_found
    have one : stop' = stop := stop_unique member' member (by rw [index_eq, index_eq', same])
    subst one
    obtain ⟨piece, covered, -⟩ := mirrors stop' member'
    exact (found_covers a_found).unique (covered _ listed) |>.trans
      ((covered _ listed').unique (found_covers b_found))
  · intro agree stop member
    have numbered : stop.index ∈ nodes.numbers :=
      mem_unsorted.1 ((laidOut_perm nodes).mem_iff.1 (List.mem_map_of_mem member))
    rw [← occurrences_numbers (resolveDefaults nodes fun _ => none) 0] at numbered
    obtain ⟨first, first_found, first_index⟩ := List.mem_map.1 numbered
    use first.text
    constructor
    · intro span listed
      obtain ⟨occurrence, occurs, index_eq, rfl⟩ := mem_stops member listed
      rw [agree first first_found occurrence occurs (first_index.trans index_eq.symm)]
      exact found_covers occurs
    · intro before word after carried _
      have carries : (stop.index, word) ∈ carriers nodes := by
        rw [carried]
        exact List.mem_append_right _ List.mem_cons_self
      obtain ⟨occurrence, occurs, index_eq, text_eq⟩ :=
        (found_text_iff tidy).2 (.inr ⟨word, carries, rfl⟩)
      exact (agree first first_found occurrence occurs (first_index.trans index_eq.symm)).trans text_eq

/-- The first entry for a number. -/
theorem exists_first {index : UInt32} (member : index ∈ given.map Prod.fst) :
    ∃ before word after, given = before ++ (index, word) :: after ∧
      index ∉ before.map Prod.fst := by
  induction given with
  | nil => cases member
  | cons entry given ih =>
      by_cases same : index = entry.1
      · exact ⟨[], entry.2, given, by rw [same]; rfl, List.not_mem_nil⟩
      · rcases List.mem_cons.1 member with here | later
        · exact absurd here same
        · obtain ⟨before, word, after, split, absent⟩ := ih later
          refine ⟨entry :: before, word, after, by rw [split]; rfl, ?_⟩
          rw [List.map_cons, List.mem_cons, not_or]
          exact ⟨same, absent⟩

/-- What is known before an entry, and what the whole table says. -/
theorem table_within (split : carriers nodes = before ++ after) (index : UInt32) :
    tableFrom (fun _ => none) before index = none ∨
      tableFrom (fun _ => none) before index = table nodes index := by
  rcases known : tableFrom (fun _ => none) before index with _ | text
  · exact .inl rfl
  · right
    rw [table, split, tableFrom, List.foldl_append]
    exact (tableFrom_some after known).symm

theorem tableFrom_eq_none_iff {index : UInt32} :
    tableFrom (fun _ => none) given index = none ↔ index ∉ given.map Prod.fst := by
  constructor
  · intro none_ member
    obtain ⟨before, word, after, rfl, absent⟩ := exists_first member
    rw [tableFrom_first rfl absent] at none_
    cases none_
  · exact tableFrom_none

/-- The default of a number is its first entry's text, when that was not rendered too early. -/
theorem default_eq_iff {index : UInt32}
    (split : carriers nodes = before ++ (index, word) :: after)
    (first : index ∉ before.map Prod.fst) :
    (table nodes index).getD [] = read (table nodes) word ↔
      ∀ other, .inr other ∈ word → other ∉ before.map Prod.fst →
        (table nodes other).getD [] = [] := by
  have default_eq : table nodes index = some (read (tableFrom (fun _ => none) before) word) := by
    rw [table, split]
    exact tableFrom_first rfl first
  rw [default_eq, Option.getD_some, read_eq_iff (table_within split)]
  simp only [tableFrom_eq_none_iff]

/-- What a bare number shows in a settled tree is what the first that is given for it reads. -/
theorem Settled.shows (settled : Settled nodes) {index : UInt32} (bare : index ∈ bares nodes)
    (split : carriers nodes = before ++ (index, word) :: after)
    (first : index ∉ before.map Prod.fst) :
    (table nodes index).getD [] = read (table nodes) word :=
  (default_eq_iff split first).2 (settled.early index bare before word after split first)

/-- The first that is given for a number. -/
def firstWord (nodes : Nodes) (index : UInt32) : Option Word :=
  ((carriers nodes).find? fun entry => entry.1 = index).map Prod.snd

theorem firstWord_eq {index : UInt32} (split : carriers nodes = before ++ (index, word) :: after)
    (first : index ∉ before.map Prod.fst) : firstWord nodes index = some word := by
  have passed : before.find? (fun entry => decide (entry.1 = index)) = none := by
    refine List.find?_eq_none.2 fun entry member here => first ?_
    exact List.mem_map.2 ⟨entry, member, of_decide_eq_true here⟩
  rw [firstWord, split, List.find?_append, passed, List.find?_cons_of_pos (by simp)]
  rfl

theorem bare_of_word {index : UInt32} (member : .inr index ∈ nodes.word) :
    index ∈ bares nodes := by
  induction nodes with
  | nil => cases member
  | text literal rest ih =>
      rcases List.mem_append.1 member with here | later
      · obtain ⟨_, -, same⟩ := List.mem_map.1 here
        cases same
      · exact ih later
  | stop index' body choices rest ih_body ih =>
      rw [word_stop] at member
      rcases List.mem_append.1 member with here | later
      · cases choices with
        | cons first more =>
            obtain ⟨_, -, same⟩ := List.mem_map.1 here
            cases same
        | nil =>
            by_cases empty : body = Nodes.nil
            · simp only [empty, if_true, List.mem_singleton, Sum.inr.injEq] at here
              simp [bares, content, empty, here]
            · simp only [empty, if_false] at here
              simp [bares, ih_body here]
      · simp [bares, ih later]

/-- The numbers in what is given stand bare there. -/
theorem bare_of_carried (carried : entry ∈ carriers nodes) {index : UInt32}
    (member : .inr index ∈ entry.2) : index ∈ bares nodes := by
  induction nodes with
  | nil => cases carried
  | text literal rest ih => exact ih carried
  | stop index' body choices rest ih_body ih =>
      simp only [carriers, List.mem_append] at carried
      rcases carried with (own | inner) | later
      · obtain ⟨word, given, rfl⟩ := List.mem_map.1 own
        rw [Option.mem_toList] at given
        cases choices with
        | cons first more =>
            cases given
            obtain ⟨_, -, same⟩ := List.mem_map.1 member
            cases same
        | nil =>
            by_cases empty : body = Nodes.nil
            · simp [content, empty] at given
            · simp only [content, empty, if_false, Option.some.injEq] at given
              rw [← given] at member
              simp [bares, bare_of_word member]
      · simp [bares, ih_body inner]
      · simp [bares, ih later]

/-- **What is given in a settled tree reads off the tree**: each bare number as the first that is given
for it. -/
theorem Settled.read_eq (settled : Settled nodes) (carried : entry ∈ carriers nodes) :
    read (table nodes) entry.2 = entry.2.flatMap (Sum.elim (fun c => [c]) fun index =>
      ((firstWord nodes index).map (read (table nodes))).getD []) := by
  refine List.flatMap_congr fun letter member => ?_
  cases letter with
  | inl c => rfl
  | inr index =>
      have bare := bare_of_carried carried member
      by_cases given : index ∈ (carriers nodes).map Prod.fst
      · obtain ⟨before, word, after, split, first⟩ := exists_first given
        rw [Sum.elim_inr, Sum.elim_inr, settled.shows bare split first, firstWord_eq split first,
          Option.map_some, Option.getD_some]
      · have absent : table nodes index = none := tableFrom_eq_none_iff.2 given
        have unnamed : firstWord nodes index = none := by
          rw [firstWord, Option.map_eq_none_iff, List.find?_eq_none]
          intro other member here
          exact given (List.mem_map.2 ⟨other, member, of_decide_eq_true here⟩)
        rw [Sum.elim_inr, Sum.elim_inr, absent, unnamed]
        rfl

theorem textsAgree_iff (tidy : nodes.Tidy) : TextsAgree nodes ↔ Settled nodes := by
  constructor
  · intro agree
    constructor
    · intro index a b carries_a carries_b
      obtain ⟨x, x_found, x_index, x_text⟩ := (found_text_iff tidy).2 (.inr ⟨a, carries_a, rfl⟩)
      obtain ⟨y, y_found, y_index, y_text⟩ := (found_text_iff tidy).2 (.inr ⟨b, carries_b, rfl⟩)
      rw [← x_text, ← y_text]
      exact agree x x_found y y_found (x_index.trans y_index.symm)
    · intro index bare before word after split first
      have carries : (index, word) ∈ carriers nodes := by
        rw [split]
        exact List.mem_append_right _ List.mem_cons_self
      obtain ⟨x, x_found, x_index, x_text⟩ := (found_text_iff tidy).2 (.inl ⟨bare, rfl⟩)
      obtain ⟨y, y_found, y_index, y_text⟩ := (found_text_iff tidy).2 (.inr ⟨word, carries, rfl⟩)
      apply (default_eq_iff split first).1
      rw [← x_text, ← y_text]
      exact agree x x_found y y_found (x_index.trans y_index.symm)
  · intro settled
    -- a bare one shows the default, which is what any that carries something reads
    have bare_eq : ∀ index ∈ bares nodes, ∀ word, (index, word) ∈ carriers nodes →
        (table nodes index).getD [] = read (table nodes) word := by
      intro index bare word carries
      obtain ⟨before, word', after, split, first⟩ := exists_first (List.mem_map_of_mem carries)
      have carries' : (index, word') ∈ carriers nodes := by
        rw [split]
        exact List.mem_append_right _ List.mem_cons_self
      exact (settled.shows bare split first).trans (settled.alike index word' word carries' carries)
    intro a a_found b b_found same
    have a_text := (found_text_iff tidy).1 ⟨a, a_found, rfl, rfl⟩
    have b_text := (found_text_iff tidy).1 ⟨b, b_found, same.symm, rfl⟩
    rcases a_text with ⟨a_bare, a_text⟩ | ⟨a_word, a_carries, a_text⟩
    · rcases b_text with ⟨_, b_text⟩ | ⟨b_word, b_carries, b_text⟩
      · rw [a_text, b_text]
      · rw [a_text, b_text]
        exact bare_eq _ a_bare _ b_carries
    · rcases b_text with ⟨b_bare, b_text⟩ | ⟨b_word, b_carries, b_text⟩
      · rw [a_text, b_text]
        exact (bare_eq _ b_bare _ a_carries).symm
      · rw [a_text, b_text]
        exact settled.alike _ _ _ a_carries b_carries

/-- The mirrors of a body's numbers agree exactly when its tree is settled. -/
theorem mirrors_agree_iff (src : Text) :
    (∀ nodes parsed, parseTree (bytes src) = .ok nodes → parseSnippet (bytes src) = .ok parsed →
        Mirrors nodes parsed) ↔
      ∀ nodes, parseTree (bytes src) = .ok nodes → Settled nodes := by
  have tidy := parseTree_tidy (bytes src)
  rw [parseSnippet]
  cases parsed : parseTree (bytes src) with
  | ok nodes =>
      rw [parsed] at tidy
      have exact_ := (mirrors_iff tidy).trans (textsAgree_iff tidy)
      constructor
      · intro mirrors nodes' same
        cases same
        exact exact_.1 (mirrors nodes _ rfl rfl)
      · intro settled nodes' parsed' same laid
        cases same
        cases laid
        exact exact_.2 (settled nodes rfl)
  | error what =>
      constructor
      · intro _ nodes same
        cases same
      · intro _ nodes _ same
        cases same
  | panicked =>
      constructor
      · intro _ nodes same
        cases same
      · intro _ nodes _ same
        cases same

/-- A default that mentions a later number is shown without its text where its own number stands bare,
and with it where it was given. -/
theorem mirrors_disagree : ∃ nodes parsed,
    parseTree (bytes "$1 $\x7b1:x$2\x7d $\x7b2:y\x7d".toList) = .ok nodes ∧
      parseSnippet (bytes "$1 $\x7b1:x$2\x7d $\x7b2:y\x7d".toList) = .ok parsed ∧
        ¬ Mirrors nodes parsed := by
  have tree : parseTree (bytes "$1 $\x7b1:x$2\x7d $\x7b2:y\x7d".toList) =
      .ok (.stop 1 .nil [] (.text [' '] (.stop 1 (.text ['x'] (.stop 2 .nil [] .nil)) []
        (.text [' '] (.stop 2 (.text ['y'] .nil) [] .nil))))) := by decide +kernel
  have laid : parseSnippet (bytes "$1 $\x7b1:x$2\x7d $\x7b2:y\x7d".toList) =
      .ok ⟨"x xy y".toList, [⟨1, [(0, 1), (2, 4)], []⟩, ⟨2, [(3, 4), (5, 6)], []⟩]⟩ := by
    decide +kernel
  refine ⟨_, _, tree, laid, ?_⟩
  intro mirrors
  obtain ⟨piece, covered, -⟩ := mirrors _ List.mem_cons_self
  obtain ⟨_, _, -, one⟩ := covered (0, 1) List.mem_cons_self
  obtain ⟨_, _, -, two⟩ := covered (2, 4) (List.mem_cons_of_mem _ List.mem_cons_self)
  simp only [Prod.mk.injEq] at one two
  omega

end Bemtvi.Core.Snippet
