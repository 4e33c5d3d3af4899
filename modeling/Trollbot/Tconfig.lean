import Trollbot.Foundation.Forest
import Trollbot.Foundation.Machine
import Trollbot.Util

namespace Trollbot.Tconfig
open CBuffer Linked Machine

-- Key and value of a tconfig_block; a block that has just been opened has neither.
structure Entry where
  key : Option Str
  value : Option Str
deriving DecidableEq

def Entry.blank : Entry := ⟨none,none⟩

def tconfigBlockNew (h : Heap Entry) : Heap Entry := alloc h ⟨.blank,none,none,none,none⟩

-- tconfig_r_depth_first_write. The state is the call's depth, its block and what has been written;
-- `climb` is the loop that leaves finished levels.
inductive WriteState where
  | visit (depth : Nat) (tmp : Option Nat) (out : Str)
  | climb (depth : Nat) (tmp : Nat) (out : Str)

def indent (depth : Nat) : Str := List.replicate (depth * 2) ' '

def quoted (s : Str) : Str := if ' ' ∈ s ∨ '\t' ∈ s then '"' :: s ++ ['"'] else s

def lineText (depth : Nat) (key value : Str) : Str := indent depth ++ quoted key ++ '\t' :: quoted value ++ ['\n']

def writeStep (h : Heap Entry) : WriteState → Outcome WriteState Str
  | .visit _ none out => .done out
  | .visit depth (some p) out =>
    match cell h p with
    | none => .fault
    | some tmp =>
      match tmp.label.key,tmp.label.value with
      | some key,some value =>
        match tmp.child,tmp.next with
        | some child,_ =>
          .next (.visit (depth + 1) (some child) (out ++ '\n' :: lineText depth key value ++ indent depth ++ ['{','\n']))
        | none,some next => .next (.visit depth (some next) (out ++ lineText depth key value))
        | none,none =>
          if 0 < depth then .next (.climb depth p (out ++ lineText depth key value))
          else .done (out ++ lineText depth key value)
      | _,_ => .fault
  | .climb depth p out =>
    match cell h p with
    | none => .fault
    | some tmp =>
      match tmp.next with
      | some next => .next (.visit depth (some next) out)
      | none =>
        if depth = 0 then .done out else
        match walkBack h (fun n => n.parent.isSome) h.length p with
        | none => .fault
        | some first =>
          match (cell h first).bind (·.parent) with
          | none => .fault
          | some parent => .next (.climb (depth - 1) parent (out ++ indent (depth - 1) ++ ['}','\n','\n']))

-- The file tconfig_to_file writes for the blocks from `tcfg` on.
def tconfigToFile (h : Heap Entry) (tcfg : Nat) (contents : Str) : Prop :=
  Ends (writeStep h) (.visit 0 (some tcfg) []) contents

-- The messages file_to_tconfig exits with.
inductive ParseExit where
  | mismatchedBrace (line : Nat)
  | straySlash (line : Nat)
  | endInComment
  | unmatchedQuote (line : Nat)
  | unmatchedKey (line : Nat)
  | endOfFile (key : Option Str) (line : Nat)
  | endOfLine (key : Option Str) (line : Nat)
deriving DecidableEq

structure ParseState where
  heap : Heap Entry
  block : Nat
  eip : Str
  line : Nat
deriving DecidableEq

inductive Parsed where
  | tree (heap : Heap Entry)
  | exit (reason : ParseExit)
deriving DecidableEq

def openBrace (h : Heap Entry) (block : Nat) : Option (Heap Entry × Nat) := do
  let n ← cell h block
  match n.child with
  | some child => some (h,child)
  | none =>
    some (store (alloc h ⟨.blank,none,none,some block,none⟩) block { n with child := some h.length },h.length)

-- The parent of the level, which is missing at the top.
def closeBrace (h : Heap Entry) (block : Nat) : Option (Option Nat) := do
  let first ← rewind h block
  let n ← cell h first
  some n.parent

-- From after the opening of a comment to its last character.
def blockComment : Str → Nat → Except ParseExit (Str × Nat)
  | [],line => .ok ([],line)
  | [_],_ => .error .endInComment
  | c :: d :: s,line =>
    if c = '*' ∧ d = '/' then .ok (d :: s,line)
    else if c = '\r' ∧ d = '\n' then blockComment s (line + 1)
    else if c = '\n' ∨ c = '\r' then blockComment (d :: s) (line + 1)
    else blockComment (d :: s) line

-- None where the comment ends the file. A lone carriage return takes the next character with it.
def lineComment : Str → Nat → Option (Str × Nat)
  | [],_ => none
  | c :: s,line =>
    if c = '\r' then
      match s with
      | [] => none
      | d :: t => if d = '\n' then some (c :: d :: t,line + 1) else some (d :: t,line + 1)
    else if c = '\n' then some (c :: s,line + 1)
    else lineComment s line

def scanTo (stops : Char → Bool) (s : Str) : Str × Str := (s.takeWhile (fun c => !stops c),s.dropWhile (fun c => !stops c))

-- After an opening quote; the rest starts with the closing one.
def scanQuoted (line : Nat) (s : Str) : Except ParseExit (Str × Str) :=
  match scanTo (fun c => c == '\n' || c == '\r' || c == '"') s with
  | (text,'"' :: rest) => .ok (text,'"' :: rest)
  | _ => .error (.unmatchedQuote line)

def isBlank (c : Char) : Bool := c == ' ' || c == '\t'

def scanPlain (stops : Char → Bool) (line : Nat) (s : Str) : Except ParseExit (Str × Str) :=
  match scanTo stops s with
  | (_,[]) => .error (.unmatchedKey line)
  | parts => .ok parts

def readKey (line : Nat) : Str → Except ParseExit (Str × Str)
  | '"' :: s => do
    let (key,rest) ← scanQuoted line s
    .ok (key,rest.tail)
  | s => scanPlain isBlank line s

def skipBlanks (key : Option Str) (line : Nat) : Str → Except ParseExit Str
  | [] => .error (.endOfFile key line)
  | c :: s =>
    if c = '\r' ∨ c = '\n' then .error (.endOfLine key line)
    else if isBlank c then skipBlanks key line s
    else .ok (c :: s)

def readValue (line : Nat) : Str → Except ParseExit (Str × Str)
  | '"' :: s => scanQuoted line s
  | s => scanPlain (fun c => isBlank c || c == '\r' || c == '\n') line s

def readEntry (blockKey : Option Str) (line : Nat) (s : Str) : Except ParseExit (Str × Str × Str) := do
  let (key,rest) ← readKey line s
  let rest ← skipBlanks blockKey line rest
  let (value,rest) ← readValue line rest
  .ok (key,value,rest)

def sameEntry (key value : Str) (e : Entry) : Bool := e.key == some key && e.value == some value

-- A sibling with the same key and value is entered again; else the pair goes into a blank block or
-- into a new last sibling.
def insertEntry (h : Heap Entry) (block : Nat) (key value : Str) : Option (Heap Entry × Nat) := do
  let first ← rewind h block
  let (found,last) ← walkOn h (sameEntry key value) h.length (some first) none
  match found with
  | some search => some (h,search)
  | none => do
    let last ← last
    let n ← cell h last
    if n.label = .blank then some (store h last { n with label := ⟨some key,some value⟩ },last)
    else some (store (alloc h ⟨⟨some key,some value⟩,some last,none,none,none⟩) last { n with next := some h.length },h.length)

-- The end of the loop's body; past the terminator the next read faults.
def goOn (heap : Heap Entry) (block : Nat) (line : Nat) : Str → Outcome ParseState Parsed
  | [] => .fault
  | _ :: s => .next ⟨heap,block,s,line⟩

def parseStep (st : ParseState) : Outcome ParseState Parsed :=
  match st.eip with
  | [] => .done (.tree st.heap)
  | '{' :: s =>
    match openBrace st.heap st.block with
    | none => .fault
    | some (heap,block) => goOn heap block st.line ('{' :: s)
  | '}' :: s =>
    match closeBrace st.heap st.block with
    | none => .fault
    | some none => .done (.exit (.mismatchedBrace st.line))
    | some (some parent) => goOn st.heap parent st.line ('}' :: s)
  | '/' :: '*' :: s =>
    match blockComment s st.line with
    | .error reason => .done (.exit reason)
    | .ok (rest,line) => goOn st.heap st.block line rest
  | '/' :: '/' :: s =>
    match lineComment s st.line with
    | none => .done (.tree st.heap)
    | some (rest,line) => goOn st.heap st.block line rest
  | '/' :: _ => .done (.exit (.straySlash st.line))
  | '\r' :: '\n' :: s => goOn st.heap st.block (st.line + 1) ('\n' :: s)
  | '\r' :: s => goOn st.heap st.block (st.line + 1) ('\r' :: s)
  | '\n' :: s => goOn st.heap st.block (st.line + 1) ('\n' :: s)
  | '\t' :: s => goOn st.heap st.block st.line ('\t' :: s)
  | ' ' :: s => goOn st.heap st.block st.line (' ' :: s)
  | s =>
    match cell st.heap st.block with
    | none => .fault
    | some n =>
      match readEntry n.label.key st.line s with
      | .error reason => .done (.exit reason)
      | .ok (key,value,rest) =>
        match insertEntry st.heap st.block key value with
        | none => .fault
        | some (heap,block) => goOn heap block st.line rest

-- The first block is allocated before anything is read, and it stays the head of the tree. The
-- contents are read up to a NUL.
def parseStart (h : Heap Entry) (contents : Str) : ParseState :=
  ⟨tconfigBlockNew h,h.length,contents.takeWhile (fun c => c != nul),1⟩

def fileToTconfig (h : Heap Entry) (contents : Str) (result : Parsed) : Prop :=
  Ends parseStep (parseStart h contents) result

end Trollbot.Tconfig
