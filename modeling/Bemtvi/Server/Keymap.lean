/-
Module: Bemtvi.Server.Keymap
Purpose: The keymap matcher: the tries compiled from the registry's snapshot, and the machine that
  withholds, fires, re-feeds and replays keys, one call of `feed` or `flush` after another.
Trusted boundary: human-reviewed model of keymap.rs:60-150, 264-362 and 371-838, ops.rs:2134-2171
  and the modes of mode.rs; `command_status` is a parameter, a hash map of tries is an association
  list, and `fed`, `passes` and `keys` only count
Main exports: Mapping, Trie, buildFor, Keymaps.feed, Keymaps.flush, Event, step
-/
import Bemtvi.Input.Notation
import Bemtvi.Lib.Run
import Bemtvi.Lib.Trie

namespace Bemtvi.Server.Keymap

open Bemtvi.Input

/-! ### Scopes -/

inductive Mode where
  | normal
  | insert
  | replace
  | visual
  | visualLine
  | command
  | multiCursor
  | select
  | helixNormal
  | helixSelect
  | terminal
deriving Repr, DecidableEq

namespace Mode

def shortCode : Mode → String
  | normal => "n"
  | insert => "i"
  | replace => "R"
  | visual => "v"
  | visualLine => "V"
  | command => "c"
  | multiCursor => "m"
  | select => "s"
  | helixNormal => "hn"
  | helixSelect => "hs"
  | terminal => "t"

def isHelix : Mode → Bool
  | helixNormal => true
  | helixSelect => true
  | _ => false

end Mode

def modeKey (mode : Mode) : Char :=
  if mode = .multiCursor then 'm' else (mode.shortCode.toList.head?).getD 'n'

/-- The tries a declared map-mode lands in. -/
def modeBuckets : String → List Char
  | "n" => ['n']
  | "i" => ['i']
  | "c" => ['c']
  | "v" => ['v', 'V']
  | "x" => ['v', 'V']
  | "s" => ['s']
  | "m" => ['m']
  | "helix" => ['h']
  | "picker" => ['P']
  | "select" => ['S']
  | "cmdline" => ['c']
  | "" => ['n', 'v', 'V', 'm']
  | _ => []

def modelessInsert : Char := 'E'

def modelessSelect : Char := 'Z'

/-- Where a key is matched. -/
inductive MatchScope where
  | editing (mode : Mode)
  | modeless (mode : Mode)
  | widget (bucket : Char)
deriving Repr, DecidableEq

namespace MatchScope

def bucket : MatchScope → Char
  | editing mode => modeKey mode
  | modeless .select => modelessSelect
  | modeless _ => modelessInsert
  | widget bucket => bucket

def oracleMode : MatchScope → Option Mode
  | editing mode => if mode.isHelix then none else some mode
  | modeless mode => some mode
  | widget _ => none

end MatchScope

/-! ### Mappings and tries -/

inductive MappingRhs where
  | lua (id : Nat)
  | keys (keys : List Key) (noremap : Bool)
deriving Repr, DecidableEq

structure Mapping where
  rhs : MappingRhs
  nowait : Bool
  silent : Bool
  expr : Bool
  desc : Option String
  default : Bool
deriving Repr, DecidableEq

/-- What a call hands back for the server to apply. -/
inductive Step where
  | editor (key : Key)
  | fire (rhs : MappingRhs) (silent expr : Bool) (lhs : List Key)
deriving Repr, DecidableEq

abbrev Trie := Bemtvi.Trie.Node Key Mapping

inductive Classify where
  | livePrefix
  | complete (mapping : Mapping)
  | none

def classify (trie : Trie) (keys : List Key) : Classify :=
  match trie.descend keys with
  | some node =>
      match node.value, node.children.isEmpty with
      | some mapping, true => .complete mapping
      | some mapping, false => if mapping.nowait then .complete mapping else .livePrefix
      | Option.none, false => .livePrefix
      | Option.none, true => .none
  | Option.none => .none

/-- The walk of `longest_complete` from a node on: the best so far, and how many keys were read. -/
def longestFrom (node : Trie) (best : Option (Mapping × Nat)) (read : Nat) :
    List Key → Option (Mapping × Nat)
  | [] => best
  | key :: keys =>
      match node.child key with
      | some next =>
          longestFrom next
            (match next.value with
            | some mapping => some (mapping, read + 1)
            | none => best)
            (read + 1) keys
      | none => best

def longestComplete (trie : Trie) (keys : List Key) : Option (Mapping × Nat) :=
  longestFrom trie none 0 keys

/-! ### The registry's snapshot, compiled -/

inductive RawRhs where
  | lua (id : Nat)
  | str (text : String)
deriving Repr, DecidableEq

structure RawKeymap where
  modes : List String
  lhs : String
  rhs : RawRhs
  noremap : Bool
  buffer : Option Nat
  desc : Option String
  nowait : Bool
  silent : Bool
  expr : Bool
  default : Bool
  seq : Nat
deriving Repr, DecidableEq

/-- One insertion into the trie of a bucket. -/
structure Insertion where
  bucket : Char
  lhs : List Key
  mapping : Mapping
deriving Repr, DecidableEq

/-- `a ≤ b` in the order of `set_snapshot`: buffer-local over global, user over default, then the
one set last. -/
def rankLe (a b : RawKeymap) : Bool :=
  let local_ := fun (entry : RawKeymap) => entry.buffer.isSome
  if local_ a != local_ b then !local_ a
  else if a.default != b.default then a.default
  else decide (a.seq ≤ b.seq)

/-- The keys of a left-hand side, as far as the terminal can deliver them apart. -/
def lhsKeys (keyboardProtocol : Bool) (entry : RawKeymap) : List Key :=
  if keyboardProtocol then parseKeysRaw entry.lhs.toList else parseKeys entry.lhs.toList

def RawKeymap.mapping (entry : RawKeymap) : Mapping where
  rhs :=
    match entry.rhs with
    | .lua id => .lua id
    | .str text => .keys (parseKeys text.toList) entry.noremap
  nowait := entry.nowait
  silent := entry.silent
  expr := entry.expr
  desc := entry.desc
  default := entry.default

/-- The bucket of the modeless tries that start as copies of the Insert and Select maps. -/
def overlay : String → List Char
  | "i" => [modelessInsert]
  | "s" => [modelessSelect]
  | _ => []

/-- The entries that `build_for` does not skip. -/
def kept (keyboardProtocol : Bool) (buffer : Nat) (snapshot : List RawKeymap) : List RawKeymap :=
  snapshot.filter fun entry =>
    (entry.buffer.isNone || entry.buffer == some buffer) && lhsKeys keyboardProtocol entry != []

/-- The insertions `build_for` makes, in its order: every entry in the buckets of its modes, then
the modeless layer on top. -/
def insertions (keyboardProtocol : Bool) (buffer : Nat) (snapshot : List RawKeymap) :
    List Insertion :=
  let entries := kept keyboardProtocol buffer snapshot
  let into := fun (entry : RawKeymap) (bucket : Char) =>
    Insertion.mk bucket (lhsKeys keyboardProtocol entry) entry.mapping
  entries.flatMap (fun entry =>
    entry.modes.flatMap fun mode => (modeBuckets mode ++ overlay mode).map (into entry)) ++
  (entries.filter fun entry => entry.modes.contains "modeless").flatMap fun entry =>
    [modelessInsert, modelessSelect].map (into entry)

/-- `entry(bucket).or_default().insert(lhs, mapping)`. -/
def insertInto (tries : List (Char × Trie)) (insertion : Insertion) : List (Char × Trie) :=
  let trie := (tries.lookup insertion.bucket).getD .empty
  Bemtvi.Trie.assign insertion.bucket (trie.insert insertion.lhs insertion.mapping) tries

def compile (insertions : List Insertion) : List (Char × Trie) :=
  insertions.foldl insertInto []

/-! ### One call -/

inductive CommandStatus where
  | complete
  | pending
  | invalid
deriving Repr, DecidableEq

def maxMapDepth : Nat := 100

/-- What a call works on: the matcher's buffer and budget, and the steps it has produced. -/
structure Work where
  pending : List Key
  remapBudget : Nat
  steps : List Step
  /-- How many keys went through `feed_key`. -/
  fed : Nat
deriving Repr, DecidableEq

def Work.push (work : Work) (step : Step) : Work := { work with steps := work.steps ++ [step] }

/-- Hand the withheld keys to the editor as they are. -/
def Work.replay (work : Work) (keys : List Key) : Work :=
  { work with steps := work.steps ++ keys.map Step.editor }

/-- `fire`, with `feed_key` a parameter. -/
def fire (feedKey : Work → Key → Option Work) (work : Work) (mapping : Mapping)
    (lhs : List Key) : Option Work :=
  let handed := work.push (.fire mapping.rhs mapping.silent mapping.expr lhs)
  match mapping.rhs with
  | .keys keys false =>
      if 0 < work.remapBudget then
        Run.run feedKey { work with remapBudget := work.remapBudget - 1 } keys
      else some handed
  | _ => some handed

/-- `resolve_buffered`: what is left to work on, and the keys replayed raw when nothing fired. -/
def resolveBuffered (feedKey : Work → Key → Option Work) (trie : Trie) (work : Work)
    (buffered : List Key) : Option (Work × Option (List Key)) :=
  match longestComplete trie buffered with
  | some (mapping, used) =>
      match fire feedKey work mapping (buffered.take used) with
      | some fired =>
          (Run.run feedKey fired (buffered.drop used)).map fun work => (work, none)
      | none => none
  | none => some (work.replay buffered, some buffered)

/-- Whether the oracle hands the key that broke a raw run to the editor at once. -/
def releases (commandStatus : Mode → List Key → CommandStatus) (trie : Trie) (scope : MatchScope)
    (raw : Option (List Key)) (key : Key) : Bool :=
  match raw, scope.oracleMode with
  | some rawRun, some mode =>
      let isOwnMapping := (longestComplete trie [key]).isSome
      let wouldHold := !isOwnMapping &&
        (match classify trie [key] with
        | .livePrefix => true
        | _ => false)
      let runAlreadyComplete := commandStatus mode rawRun == .complete
      wouldHold && !runAlreadyComplete && commandStatus mode (rawRun ++ [key]) == .complete
  | _, _ => false

/-- `feed_key`, as deep as the fuel goes. -/
def feedKey (commandStatus : Mode → List Key → CommandStatus) (tries : List (Char × Trie))
    (scope : MatchScope) : Nat → Work → Key → Option Work
  | 0, _, _ => none
  | fuel + 1, work, key =>
      let again := feedKey commandStatus tries scope fuel
      let counted := { work with fed := work.fed + 1 }
      let emptied := { counted with pending := [] }
      match tries.lookup scope.bucket with
      | none => some ((emptied.replay work.pending).push (.editor key))
      | some trie =>
          match classify trie (work.pending ++ [key]) with
          | .livePrefix => some { counted with pending := work.pending ++ [key] }
          | .complete mapping => fire again emptied mapping (work.pending ++ [key])
          | .none =>
              if work.pending = [] then some (counted.push (.editor key))
              else
                match resolveBuffered again trie emptied work.pending with
                | some (resolved, raw) =>
                    if releases commandStatus trie scope raw key then
                      some (resolved.push (.editor key))
                    else again resolved key
                | none => none

/-- One pass of the loop of `flush`: what was withheld is resolved, or replayed where the scope has
no trie. -/
def flushPass (commandStatus : Mode → List Key → CommandStatus) (tries : List (Char × Trie))
    (scope : MatchScope) (fuel : Nat) (work : Work) : Option Work :=
  let emptied := { work with pending := [] }
  match tries.lookup scope.bucket with
  | some trie =>
      (resolveBuffered (feedKey commandStatus tries scope fuel) trie emptied work.pending).map
        Prod.fst
  | none => some (emptied.replay work.pending)

/-- The loop of `flush`; with the work, how many keys were withheld before and after each pass. -/
def flushLoop (commandStatus : Mode → List Key → CommandStatus) (tries : List (Char × Trie))
    (scope : MatchScope) : Nat → Work → Option (Work × List (Nat × Nat))
  | 0, _ => none
  | fuel + 1, work =>
      if work.pending = [] then some (work, [])
      else
        match flushPass commandStatus tries scope fuel work with
        | none => none
        | some after =>
            let pass := (work.pending.length, after.pending.length)
            if work.pending.length ≤ after.pending.length then some (after, [pass])
            else
              (flushLoop commandStatus tries scope fuel after).map fun (last, passes) =>
                (last, pass :: passes)

/-! ### The matcher -/

structure Keymaps where
  version : Nat
  snapshot : List RawKeymap
  builtBuffer : Option Nat
  tries : List (Char × Trie)
  pending : List Key
  remapBudget : Nat
  keyboardProtocol : Bool

namespace Keymaps

def default : Keymaps where
  version := 0
  snapshot := []
  builtBuffer := none
  tries := []
  pending := []
  remapBudget := 0
  keyboardProtocol := false

def setSnapshot (keymaps : Keymaps) (version : Nat) (snapshot : List RawKeymap) : Keymaps :=
  { keymaps with
    version := version
    snapshot := snapshot.mergeSort rankLe
    builtBuffer := none }

def setKeyboardProtocol (keymaps : Keymaps) (active : Bool) : Keymaps :=
  if keymaps.keyboardProtocol = active then keymaps
  else { keymaps with keyboardProtocol := active, builtBuffer := none }

def buildFor (keymaps : Keymaps) (buffer : Nat) : Keymaps :=
  { keymaps with
    builtBuffer := some buffer
    tries := compile (insertions keymaps.keyboardProtocol buffer keymaps.snapshot) }

/-- A call starts with the whole budget. -/
def work (keymaps : Keymaps) : Work where
  pending := keymaps.pending
  remapBudget := maxMapDepth
  steps := []
  fed := 0

def feed (keymaps : Keymaps) (commandStatus : Mode → List Key → CommandStatus) (fuel : Nat)
    (scope : MatchScope) (key : Key) : Option Work :=
  feedKey commandStatus keymaps.tries scope fuel keymaps.work key

def flush (keymaps : Keymaps) (commandStatus : Mode → List Key → CommandStatus) (fuel : Nat)
    (scope : MatchScope) : Option (Work × List (Nat × Nat)) :=
  flushLoop commandStatus keymaps.tries scope fuel keymaps.work

/-- The matcher as a call leaves it. -/
def after (keymaps : Keymaps) (work : Work) : Keymaps :=
  { keymaps with pending := work.pending, remapBudget := work.remapBudget }

end Keymaps

/-! ### Calls, one after another -/

inductive Event where
  | setSnapshot (version : Nat) (snapshot : List RawKeymap)
  | setKeyboardProtocol (active : Bool)
  | buildFor (buffer : Nat)
  | feed (scope : MatchScope) (key : Key)
  | flush (scope : MatchScope)

/-- The matcher, the steps all calls so far returned and the keys they were fed. -/
structure Session where
  keymaps : Keymaps
  steps : List Step
  keys : List Key

namespace Session

def initial : Session where
  keymaps := .default
  steps := []
  keys := []

/-- The session behind a call: the matcher as it left it and the steps it returned. -/
def returned (session : Session) (work : Work) : Session :=
  { session with
    keymaps := session.keymaps.after work
    steps := session.steps ++ work.steps }

def step (commandStatus : Mode → List Key → CommandStatus) (fuel : Nat) (session : Session) :
    Event → Option Session
  | .setSnapshot version snapshot =>
      some { session with keymaps := session.keymaps.setSnapshot version snapshot }
  | .setKeyboardProtocol active =>
      some { session with keymaps := session.keymaps.setKeyboardProtocol active }
  | .buildFor buffer => some { session with keymaps := session.keymaps.buildFor buffer }
  | .feed scope key =>
      (session.keymaps.feed commandStatus fuel scope key).map fun work =>
        { session.returned work with keys := session.keys ++ [key] }
  | .flush scope =>
      (session.keymaps.flush commandStatus fuel scope).map fun (work, _) => session.returned work

end Session

end Bemtvi.Server.Keymap
