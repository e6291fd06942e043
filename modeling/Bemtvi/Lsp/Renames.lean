/-
Module: Bemtvi.Lsp.Renames
Purpose: Documents that a workspace edit addresses by a name its own renames have yet to give.  The
  walk back from a name to the one the file has now, and when it finds that file.
Trusted boundary: human-reviewed model of bemtvi-server/src/lsp/edit.rs:1576-1615; the URIs are a
  parameter, read and written by bemtvi-lsp/src/uri.rs
Main exports: Rename, walkBack, rewindPendingRenames, applyRename, Unreused, rewind_finds_file
-/
import Bemtvi.Lib.Run

namespace Bemtvi.Lsp.Renames

/-- A rename that is queued and has not run: the `(from, to)` of the source. -/
structure Rename (Path : Type) where
  old : Path
  new : Path
deriving Repr, DecidableEq

/-- `uri_to_path` and `path_to_uri`, in the session's path style. -/
structure Uris (Url Path : Type) where
  toPath : Url → Option Path
  ofPath : Path → Option Url

variable {Path Url File : Type} [DecidableEq Path]

/-- The walk of the source: the last rename that gives the name leads to the name before it. -/
def walkBack (renames : List (Rename Path)) : Nat → Path → Path
  | 0, current => current
  | steps + 1, current =>
      match renames.reverse.find? fun rename => rename.new = current with
      | some rename => walkBack renames steps rename.old
      | none => current

/-- `rewind_pending_renames`. -/
def rewindPendingRenames (uris : Uris Url Path) (renames : List (Rename Path)) (uri : Url) : Url :=
  if renames.isEmpty then uri
  else
    match uris.toPath uri with
    | none => uri
    | some path =>
        let current := walkBack renames renames.length path
        if current = path then uri else (uris.ofPath current).getD uri

/-! ### The renames as they run -/

/-- Run one rename: an existing file moves to a free name. -/
def applyRename (files : Path → Option File) (rename : Rename Path) :
    Option (Path → Option File) :=
  if (files rename.old).isSome ∧ (files rename.new).isNone then
    some fun path =>
      if path = rename.new then files rename.old
      else if path = rename.old then none
      else files path
  else none

variable {after files : Path → Option File} {rename : Rename Path} {path : Path}
  {renames later rest : List (Rename Path)}

theorem applyRename_some (done : applyRename files rename = some after) :
    (files rename.new).isNone ∧ after rename.new = files rename.old ∧
      ∀ path, path ≠ rename.new → ∀ file, after path = some file → files path = some file := by
  unfold applyRename at done
  split at done
  · rename_i valid
    obtain rfl := Option.some.inj done
    refine ⟨valid.2, by simp, ?_⟩
    intro path other file named
    simp only [other, if_false] at named
    by_cases left : path = rename.old
    · simp [left] at named
    · simpa [left] using named
  · cases done

/-- No rename of the file that ends at the path leaves a name which a later rename gives again; the
renames are read from the last to the first, past those in `later`.  Where every rename of the list
moved this file, as `own` says of `later`, its first name may be given again. -/
def UnreusedFrom (own : Bool) (later : List (Rename Path)) : List (Rename Path) → Path → Prop
  | [], _ => True
  | rename :: earlier, path =>
      if rename.new = path then
        (own = true ∧ earlier = [] ∨ ∀ again ∈ rename :: later, again.new ≠ rename.old) ∧
          UnreusedFrom own (rename :: later) earlier rename.old
      else UnreusedFrom false (rename :: later) earlier path

/-- No name that the file at the path has left is given again by a later rename, but for the first
name of a file that every rename moved. -/
def Unreused (renames : List (Rename Path)) (path : Path) : Prop :=
  UnreusedFrom true [] renames.reverse path

instance (own : Bool) (later renames : List (Rename Path)) (path : Path) :
    Decidable (UnreusedFrom own later renames path) := by
  induction renames generalizing own later path with
  | nil => exact .isTrue trivial
  | cons rename earlier ih =>
      unfold UnreusedFrom
      have := ih own (rename :: later) rename.old
      have := ih false (rename :: later) path
      have : Decidable (earlier = []) := decidable_of_iff _ List.isEmpty_iff
      infer_instance

instance (renames : List (Rename Path)) (path : Path) : Decidable (Unreused renames path) :=
  inferInstanceAs (Decidable (UnreusedFrom _ _ _ _))

/-! ### The walk on names that are not reused -/

/-- Where the file at a path was before the renames, undone from the last to the first. -/
def origin : List (Rename Path) → Path → Path
  | [], path => path
  | rename :: earlier, path =>
      if rename.new = path then origin earlier rename.old else origin earlier path

theorem origin_names (ran : Run.run applyRename files renames = some after) {file : File}
    (named : after path = some file) : files (origin renames.reverse path) = some file := by
  induction renames using List.reverseRecOn generalizing after path with
  | nil =>
      cases ran
      exact named
  | append_singleton earlier rename ih =>
      obtain ⟨middle, front, done⟩ := Run.run_concat.1 ran
      obtain ⟨-, moved, others⟩ := applyRename_some done
      rw [List.reverse_append, List.reverse_singleton, List.singleton_append, origin]
      by_cases gives : rename.new = path
      · rw [if_pos gives]
        apply ih front
        rw [← moved, gives]
        exact named
      · rw [if_neg gives]
        exact ih front (others path (Ne.symm gives) file named)

theorem walkBack_unproduced (unproduced : ∀ rename ∈ renames, rename.new ≠ path) (steps : Nat) :
    walkBack renames steps path = path := by
  cases steps with
  | zero => rfl
  | succ steps =>
      have none_gives : renames.reverse.find? (fun rename => rename.new = path) = none := by
        rw [List.find?_eq_none]
        intro rename member
        simpa using unproduced rename (List.mem_reverse.1 member)
      rw [walkBack, none_gives]

theorem walkBack_gives {earlier : List (Rename Path)}
    (whole : renames.reverse = later.reverse ++ rename :: earlier)
    (fresh : ∀ again ∈ later, again.new ≠ rename.new) (steps : Nat) :
    walkBack renames (steps + 1) rename.new = walkBack renames steps rename.old := by
  have found : renames.reverse.find? (fun other => other.new = rename.new) = some rename := by
    rw [whole, List.find?_append, List.find?_eq_none.2]
    · simp
    · intro again member
      simpa using fresh again (List.mem_reverse.1 member)
  rw [walkBack, found]

/-- **The walk on a suffix.**  Behind the renames of `later`, none of which gives the name, the walk
undoes what is left of the list. -/
theorem walkBack_origin {steps : Nat} {own : Bool}
    (whole : renames.reverse = later.reverse ++ rest) (enough : rest.length ≤ steps)
    (bound : own = true → steps = rest.length) (fresh : ∀ again ∈ later, again.new ≠ path)
    (unreused : UnreusedFrom own later rest path) :
    walkBack renames steps path = origin rest path := by
  induction rest generalizing own later path steps with
  | nil =>
      apply walkBack_unproduced
      intro rename member
      apply fresh
      simpa [whole] using List.mem_reverse.2 member
  | cons rename earlier ih =>
      have whole' : renames.reverse = (rename :: later).reverse ++ earlier := by
        simpa using whole
      rw [origin]
      unfold UnreusedFrom at unreused
      by_cases gives : rename.new = path
      · obtain rfl := gives
        rw [if_pos rfl] at unreused ⊢
        cases steps with
        | zero => cases enough
        | succ steps =>
            rw [walkBack_gives whole fresh]
            rcases unreused.1 with ⟨all, rfl⟩ | gone
            · -- The file's first name: the bound stops the walk there.
              have stopped : steps = 0 := Nat.succ.inj (bound all)
              rw [stopped, walkBack, origin]
            · exact ih whole' (Nat.le_of_succ_le_succ enough)
                (fun all => Nat.succ.inj (bound all)) gone unreused.2
      · rw [if_neg gives] at unreused ⊢
        apply ih whole' (Nat.le_of_succ_le enough) (fun all => by cases all) _ unreused
        intro again member
        rcases List.mem_cons.1 member with rfl | member
        · exact gives
        · exact fresh again member

theorem walkBack_eq_origin (unreused : Unreused renames path) :
    walkBack renames renames.length path = origin renames.reverse path := by
  have whole : renames.reverse = [].reverse ++ renames.reverse := rfl
  apply walkBack_origin whole
  · simp
  · simp
  · simp
  · exact unreused

theorem walkBack_cases (renames : List (Rename Path)) (steps : Nat) (path : Path) :
    walkBack renames steps path = path ∨
      ∃ rename ∈ renames, rename.old = walkBack renames steps path := by
  induction steps generalizing path with
  | zero => exact Or.inl rfl
  | succ steps ih =>
      rw [walkBack]
      split
      · rename_i rename found
        have member : rename ∈ renames := List.mem_reverse.1 (List.mem_of_find?_eq_some found)
        rcases ih rename.old with here | further
        · exact Or.inr ⟨rename, member, here.symm⟩
        · exact Or.inr further
      · exact Or.inl rfl

/-- The URI that comes back is the one of the path the walk ends at. -/
theorem rewind_path {uris : Uris Url Path} {uri : Url}
    (spelled : ∀ rename ∈ renames, ∃ its, uris.ofPath rename.old = some its ∧
      uris.toPath its = some rename.old) (reads : uris.toPath uri = some path) :
    uris.toPath (rewindPendingRenames uris renames uri) =
      some (walkBack renames renames.length path) := by
  unfold rewindPendingRenames
  cases renames with
  | nil => exact reads
  | cons rename renames =>
      simp only [List.isEmpty_cons, Bool.false_eq_true, if_false, reads]
      split
      · rename_i stays
        rw [stays]
        exact reads
      · rename_i moved
        obtain ⟨source, member, its⟩ :=
          (walkBack_cases (rename :: renames) _ path).resolve_left moved
        obtain ⟨there, written, back⟩ := spelled source member
        rw [← its, written]
        exact back

/-- **Rewinding finds the file.**  Where no name the file left is given again by a later rename, but
for the first name of a file that every rename moved, the URI that comes back names, before the
renames, the file that the given one names after them. -/
theorem rewind_finds_file {uris : Uris Url Path} {files after : Path → Option File}
    {renames : List (Rename Path)} {uri : Url} {path : Path} {file : File}
    (spelled : ∀ rename ∈ renames, ∃ its, uris.ofPath rename.old = some its ∧
      uris.toPath its = some rename.old)
    (ran : Run.run applyRename files renames = some after)
    (reads : uris.toPath uri = some path) (named : after path = some file)
    (unreused : Unreused renames path) :
    ∃ source, uris.toPath (rewindPendingRenames uris renames uri) = some source ∧
      files source = some file := by
  refine ⟨origin renames.reverse path, ?_, origin_names ran named⟩
  rw [rewind_path spelled reads, walkBack_eq_origin unreused]

/-- A name that was free from the start, given to another file once the first has left it. -/
theorem rewind_finds_file_chain :
    ∃ source, (Uris.mk some some).toPath
        (rewindPendingRenames (Uris.mk some some) [⟨1, 2⟩, ⟨7, 1⟩, ⟨2, 3⟩] 1) = some source ∧
      (fun path => if path = 1 ∨ path = 7 then some path else none) source = some 7 := by
  refine rewind_finds_file ?_ rfl rfl ?_ ?_
  · intro rename _
    exact ⟨rename.old, rfl, rfl⟩
  · decide
  · decide

/-- There and back: the bound stops the walk at the first name. -/
example : Unreused [⟨1, 2⟩, ⟨2, 1⟩] 1 ∧
    rewindPendingRenames (Uris.mk some some) [⟨1, 2⟩, ⟨2, 1⟩] 1 = 1 := by
  decide

/-- Two names swapped through a third: the walk goes round, past the rename it has just undone. -/
theorem swap_finds_other_file :
    rewindPendingRenames (Uris.mk some some) [⟨"a", "t"⟩, ⟨"b", "a"⟩, ⟨"t", "b"⟩] "a" = "a" ∧
      (Run.run applyRename (fun path => if path = "a" ∨ path = "b" then some path else none)
        [⟨"a", "t"⟩, ⟨"b", "a"⟩, ⟨"t", "b"⟩]).bind (· "a") = some "b" := by
  decide

/-- Behind the renames of `later`, a name given again is one the walk goes on from. -/
theorem walkBack_departs {steps : Nat} {own : Bool}
    (whole : renames.reverse = later.reverse ++ rest) (enough : rest.length ≤ steps)
    (spare : own = false → rest.length < steps) (fresh : ∀ again ∈ later, again.new ≠ path)
    (reused : ¬ UnreusedFrom own later rest path) :
    ∃ front rename earlier more, renames.reverse = front ++ rename :: earlier ∧
      walkBack renames steps path = walkBack renames (more + 1) rename.old ∧
      ∃ again ∈ front ++ [rename], again.new = rename.old ∧
        walkBack renames (more + 1) rename.old = walkBack renames more again.old := by
  induction rest generalizing own later path steps with
  | nil => exact absurd trivial reused
  | cons rename earlier ih =>
      have whole' : renames.reverse = (rename :: later).reverse ++ earlier := by
        simpa using whole
      unfold UnreusedFrom at reused
      by_cases gives : rename.new = path
      · obtain rfl := gives
        rw [if_pos rfl] at reused
        cases steps with
        | zero => cases enough
        | succ steps =>
            rw [walkBack_gives whole fresh]
            by_cases gone : ∀ again ∈ rename :: later, again.new ≠ rename.old
            · exact ih whole' (Nat.le_of_succ_le_succ enough)
                (fun foreign => Nat.lt_of_succ_lt_succ (spare foreign)) gone
                fun unreused => reused ⟨Or.inr gone, unreused⟩
            · have left : ∃ more, steps = more + 1 := by
                apply Nat.exists_eq_add_one_of_ne_zero
                rintro rfl
                -- No step is left: every rename moved the file, and what is exempt was reused.
                have last : earlier = [] :=
                  List.eq_nil_of_length_eq_zero (Nat.le_zero.1 (Nat.le_of_succ_le_succ enough))
                subst last
                cases own with
                | false => exact absurd (spare rfl) (Nat.lt_irrefl _)
                | true => exact reused ⟨Or.inl ⟨rfl, rfl⟩, trivial⟩
              obtain ⟨more, rfl⟩ := left
              refine ⟨later.reverse, rename, earlier, more, whole, rfl, ?_⟩
              cases found : (later.reverse ++ [rename]).find? fun other => other.new = rename.old with
              | none =>
                  refine absurd (fun again member => ?_) gone
                  rw [List.find?_eq_none] at found
                  simpa using found again (by simpa [or_comm] using member)
              | some again =>
                  have gives_it : again.new = rename.old := by
                    simpa using List.find?_some found
                  have first : renames.reverse.find? (fun other => other.new = rename.old) =
                      some again := by
                    rw [whole, ← List.singleton_append, ← List.append_assoc, List.find?_append,
                      found]
                    rfl
                  exact ⟨again, List.mem_of_find?_eq_some found, gives_it, by rw [walkBack, first]⟩
      · rw [if_neg gives] at reused
        apply ih whole' (Nat.le_of_succ_le enough) (fun _ => enough) _ reused
        intro again member
        rcases List.mem_cons.1 member with rfl | member
        · exact gives
        · exact fresh again member

/-- Where such a name is given again, the walk leaves the file's own way within its bound: from a name
the file had it goes on with a rename that runs after the file left the name. -/
theorem reused_departs (reused : ¬ Unreused renames path) :
    ∃ front rename earlier more, renames.reverse = front ++ rename :: earlier ∧
      walkBack renames renames.length path = walkBack renames (more + 1) rename.old ∧
      ∃ again ∈ front ++ [rename], again.new = rename.old ∧
        walkBack renames (more + 1) rename.old = walkBack renames more again.old := by
  have whole : renames.reverse = [].reverse ++ renames.reverse := rfl
  apply walkBack_departs whole _ _ _ reused
  · simp
  · simp
  · simp

end Bemtvi.Lsp.Renames
