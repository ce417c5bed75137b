/-
  Lineage.Yaml.Node

  The nodes of a YAML document, and how its tokens make them up.

  A node may have an anchor, by which aliases refer to it.  Anchors are numbered: an
  anchor's number is how many names there are before it.  So a name that is used again
  shares its number with the next new one, and of nodes with one number aliases mean
  the last.
-/
import Lineage.Yaml.Layout

namespace Lineage.Yaml

/-- What may stand before a node: the number of its anchor, and its tag. -/
structure Properties where
  anchor : Option Nat := none
  tag : Option Octets := none
  deriving DecidableEq

inductive Node where
  /-- Another node, by the number of its anchor. -/
  | alias (number : Nat)
  | scalar (properties : Properties) (plain : Bool) (text : String)
  | sequence (properties : Properties) (items : List Node)
  | mapping (properties : Properties) (entries : List (Node × Node))

namespace Node

/-- What stands where nothing is written. -/
def empty : Node := .scalar {} true ""

mutual

/-- The anchored nodes in a node with their numbers, each before those in it. -/
def anchored : Node → List (Nat × Node)
  | .alias _ => []
  | .scalar properties plain text =>
    properties.anchor.toList.map (·, .scalar properties plain text)
  | .sequence properties items =>
    properties.anchor.toList.map (·, .sequence properties items) ++ anchoredItems items
  | .mapping properties entries =>
    properties.anchor.toList.map (·, .mapping properties entries) ++ anchoredEntries entries

def anchoredItems : List Node → List (Nat × Node)
  | [] => []
  | node :: rest => node.anchored ++ anchoredItems rest

def anchoredEntries : List (Node × Node) → List (Nat × Node)
  | [] => []
  | (key, value) :: rest => key.anchored ++ value.anchored ++ anchoredEntries rest

end

mutual

/-- How large a node is: a collection counts twice, for its start and its end. -/
def size : Node → Nat
  | .alias _ | .scalar _ _ _ => 1
  | .sequence _ items => sizeItems items + 2
  | .mapping _ entries => sizeEntries entries + 2

def sizeItems : List Node → Nat
  | [] => 0
  | node :: rest => node.size + sizeItems rest

def sizeEntries : List (Node × Node) → Nat
  | [] => 0
  | (key, value) :: rest => key.size + value.size + sizeEntries rest

end

end Node

/-! ## Nodes of tokens -/

/-- The tokens left, what handles stand for, and the numbers of the anchors read so far. -/
structure Cursor where
  tokens : List Token
  handles : Handles
  numbers : List (String × Nat) := []

namespace Cursor

/-- Go on at other tokens. -/
def moveTo (c : Cursor) (tokens : List Token) : Cursor := { c with tokens := tokens }

/-- Number an anchor. -/
def number (c : Cursor) (name : String) : Nat × Cursor :=
  let number := c.numbers.length
  (number, { c with numbers := (name, number) :: c.numbers.filter (·.1 != name) })

/-- Read an anchor and a tag, in either order. -/
def takeProperties (c : Cursor) : Option (Properties × Cursor) :=
  match c.tokens with
  | .anchor name :: .tag t :: rest => do
    let (number, c) := c.number name
    return (⟨some number, some (← t.octets? c.handles)⟩, c.moveTo rest)
  | .tag t :: .anchor name :: rest => do
    let (number, c) := c.number name
    return (⟨some number, some (← t.octets? c.handles)⟩, c.moveTo rest)
  | .anchor name :: rest =>
    let (number, c) := c.number name
    some (⟨some number, none⟩, c.moveTo rest)
  | .tag t :: rest => do
    return (⟨none, some (← t.octets? c.handles)⟩, c.moveTo rest)
  | _ => some ({}, c)

end Cursor

/-- Where a node stands. -/
inductive Context where
  /-- Between brackets. -/
  | flow
  /-- As an item of a block sequence, or as the root. -/
  | item
  /-- As a key or value of a block mapping.  The items of a sequence may stand in the column of the
  keys there. -/
  | entry
  deriving DecidableEq

/-- The properties of a written scalar.  The tag that is a mere exclamation mark says nothing
there. -/
def Properties.ofScalar (p : Properties) : Properties :=
  if p.tag = some (octets "!") then { p with tag := none } else p

/-- Skip the comma between two things between brackets. -/
def takeFlowSeparator (first : Bool) (tokens : List Token) : Option (List Token) :=
  if first then some tokens
  else
    match tokens with
    | .separator :: rest => some rest
    | _ => none

mutual

/-- Read a node. -/
def takeNode (fuel : Nat) (context : Context) (c : Cursor) : Option (Node × Cursor) :=
  match fuel with
  | 0 => none
  | fuel + 1 =>
    match c.tokens with
    | .alias name :: rest => (c.numbers.lookup name).map fun number => (.alias number, c.moveTo rest)
    | _ => do
      let (properties, c) ← c.takeProperties
      let flow := context = .flow
      match c.tokens with
      | .scalar plain text :: rest => return (.scalar properties.ofScalar plain text, c.moveTo rest)
      | .flowSequence :: rest =>
        let (items, c) ← takeFlowItems fuel true [] (c.moveTo rest)
        return (.sequence properties items, c)
      | .flowMapping :: rest =>
        let (entries, c) ← takeFlowEntries fuel true [] (c.moveTo rest)
        return (.mapping properties entries, c)
      | .blockSequence :: rest =>
        if flow then none
        let (items, c) ← takeItems fuel false [] (c.moveTo rest)
        return (.sequence properties items, c)
      | .blockMapping :: rest =>
        if flow then none
        let (entries, c) ← takeEntries fuel [] (c.moveTo rest)
        return (.mapping properties entries, c)
      | tokens =>
        if context = .entry && tokens.head? = some .item then
          let (items, c) ← takeItems fuel true [] c
          return (.sequence properties items, c)
        else if properties = {} then none
        else return (.scalar properties true "", c)

/-- Read a node, an empty one if one of some tokens follows instead. -/
def takeOptional (fuel : Nat) (context : Context) (ends : List Token) (c : Cursor) :
    Option (Node × Cursor) :=
  match fuel with
  | 0 => none
  | fuel + 1 => if c.tokens.head?.any ends.contains then some (.empty, c) else takeNode fuel context c

/-- Read the items of a block sequence; `done` holds those already read, last first.  `bare` items
stand in the column of the keys around them, and nothing marks their end. -/
def takeItems (fuel : Nat) (bare : Bool) (done : List Node) (c : Cursor) :
    Option (List Node × Cursor) :=
  match fuel with
  | 0 => none
  | fuel + 1 =>
    match c.tokens with
    | .item :: rest => do
      let ends := if bare then [.item, .key, .value, .blockEnd] else [.item, .blockEnd]
      let (node, c) ← takeOptional fuel .item ends (c.moveTo rest)
      takeItems fuel bare (node :: done) c
    | .blockEnd :: rest => some (done.reverse, if bare then c else c.moveTo rest)
    | _ => if bare then some (done.reverse, c) else none

/-- Read the entries of a block mapping. -/
def takeEntries (fuel : Nat) (done : List (Node × Node)) (c : Cursor) :
    Option (List (Node × Node) × Cursor) :=
  match fuel with
  | 0 => none
  | fuel + 1 =>
    match c.tokens with
    | .key :: rest => do
      let ends := [.key, .value, .blockEnd]
      let (key, c) ← takeOptional fuel .entry ends (c.moveTo rest)
      let (value, c) ← match c.tokens with
        | .value :: rest => takeOptional fuel .entry ends (c.moveTo rest)
        | _ => some (.empty, c)
      takeEntries fuel ((key, value) :: done) c
    | .blockEnd :: rest => some (done.reverse, c.moveTo rest)
    | _ => none

/-- Read the items up to a closing bracket.  A mark of a key makes an item a mapping with a single
entry. -/
def takeFlowItems (fuel : Nat) (first : Bool) (done : List Node) (c : Cursor) :
    Option (List Node × Cursor) :=
  match fuel with
  | 0 => none
  | fuel + 1 =>
    match c.tokens with
    | .flowSequenceEnd :: rest => some (done.reverse, c.moveTo rest)
    | tokens => do
      match ← takeFlowSeparator first tokens with
      | .flowSequenceEnd :: rest => return (done.reverse, c.moveTo rest)
      | .key :: rest =>
        let (key, c) ← match rest with
          | .value :: rest | .separator :: rest | .flowSequenceEnd :: rest => some (.empty, c.moveTo rest)
          | rest => takeNode fuel .flow (c.moveTo rest)
        let (value, c) ← match c.tokens with
          | .value :: rest => takeOptional fuel .flow [.separator, .flowSequenceEnd] (c.moveTo rest)
          | _ => some (.empty, c)
        takeFlowItems fuel false (.mapping {} [(key, value)] :: done) c
      | tokens =>
        let (node, c) ← takeNode fuel .flow (c.moveTo tokens)
        takeFlowItems fuel false (node :: done) c

/-- Read the entries up to a closing brace.  A node without the mark of a key is one without a
value. -/
def takeFlowEntries (fuel : Nat) (first : Bool) (done : List (Node × Node)) (c : Cursor) :
    Option (List (Node × Node) × Cursor) :=
  match fuel with
  | 0 => none
  | fuel + 1 =>
    match c.tokens with
    | .flowMappingEnd :: rest => some (done.reverse, c.moveTo rest)
    | tokens => do
      match ← takeFlowSeparator first tokens with
      | .flowMappingEnd :: rest => return (done.reverse, c.moveTo rest)
      | .key :: rest =>
        let (key, c) ← takeOptional fuel .flow [.value, .separator, .flowMappingEnd] (c.moveTo rest)
        let (value, c) ← match c.tokens with
          | .value :: rest => takeOptional fuel .flow [.separator, .flowMappingEnd] (c.moveTo rest)
          | _ => some (.empty, c)
        takeFlowEntries fuel false ((key, value) :: done) c
      | tokens =>
        let (node, c) ← takeNode fuel .flow (c.moveTo tokens)
        takeFlowEntries fuel false ((node, .empty) :: done) c

end

/-! ## Documents -/

/-- Read the directives of a document; `version` says whether one gave the version.  A version and
what a handle stands for can be given once only. -/
def takeDirectives (version : Bool) (handles : Handles) : List Token →
    Option (Handles × List Token)
  | .directive (.version major minor) :: rest =>
    if !version && major = 1 && (minor = 1 || minor = 2) then takeDirectives true handles rest
    else none
  | .directive (.handle name text) :: rest =>
    if (handles.lookup name).isNone then takeDirectives version ((name, text) :: handles) rest
    else none
  | rest => some (handles, rest)

/-- Whether a document has no root when it begins with a token. -/
def endsDocument : Token → Bool
  | .directive _ | .documentStart | .documentEnd => true
  | _ => false

/-- The root of a document, whose tokens begin with it. -/
def takeRoot (handles : Handles) (tokens : List Token) : Option (Node × List Token) :=
  (takeNode (4 * tokens.length + 4) .item ⟨tokens, handles ++ defaultHandles, []⟩).map
    fun (node, c) => (node, c.tokens)

/-- The root of the only document that tokens hold; without any tokens there is none. -/
def root? (tokens : List Token) : Option (Option Node) := do
  if tokens.isEmpty then return none
  let (node, rest) ← match tokens with
    | .directive _ :: _ | .documentStart :: _ => do
      match ← takeDirectives false [] tokens with
      | (handles, .documentStart :: rest) =>
        if rest.head?.all endsDocument then some (.empty, rest) else takeRoot handles rest
      | _ => none
    | _ => takeRoot [] tokens
  if (rest.dropWhile (· = .documentEnd)).isEmpty then return some node else none

end Lineage.Yaml
