import Trollbot.ConfigReads
import Trollbot.Foundation.Runs
import Trollbot.Tssv

-- The arrays of scripts that the loader fills, in their allocations.
namespace Trollbot.ScriptLists
open CBuffer Tconfig ConfigEngine IrcParse Tssv

-- An allocation of some bytes, and the pointers that it has room for.
structure Block where
  bytes : Nat
  cells : Slots

-- A null pointer and 0, or an array and what is taken for its size.
structure ScriptArray where
  block : Option Block
  size : Nat

def noScripts : ScriptArray := ⟨none,0⟩

-- memset over bytes. A pointer of which only a part is cleared is none that can be used.
def clear (start stop : Nat) (cells : Slots) : Slots :=
  cells.mapIdx (fun i cell =>
    if start ≤ sizeofPointer * i ∧ sizeofPointer * (i + 1) ≤ stop then some none
    else if stop ≤ sizeofPointer * i ∨ sizeofPointer * (i + 1) ≤ start then cell
    else none)

-- The size is one in bytes, for realloc and for the fill. It starts a pointer before the recorded end
-- of the old array; the subtraction wraps where that has none.
def tsrealloc0 (block : Block) (size bufsize : Nat) : Option (Block × Nat) :=
  let cells := resize block.cells (size / sizeofPointer)
  if bufsize < size then
    let start := sizeofPointer * (bufsize / sizeofPointer - 1)
    if bufsize / sizeofPointer = 0 ∨ size < start + (size - bufsize) then none
    else some (⟨size,clear start (start + (size - bufsize)) cells⟩,asUnsigned size)
  else some (⟨size,cells⟩,asUnsigned size)

-- Where all sizes are of whole pointers this is the one that the parsers use.
theorem tsrealloc0_whole (slots : Slots) (bytes : Nat) (size bufsize : Nat) (fits : sizeofPointer * size < 4294967296) :
    tsrealloc0 ⟨bytes,slots⟩ (sizeofPointer * size) (sizeofPointer * bufsize) =
      (Trollbot.tsrealloc0 slots size bufsize).map (fun grown => (⟨sizeofPointer * size,grown.1⟩,sizeofPointer * grown.2)) := by
  simp only [tsrealloc0,Trollbot.tsrealloc0,grow,asUnsigned,sizeofPointer,Nat.mul_div_cancel_left _ (by decide : 0 < 8)] at fits ⊢
  rw [Nat.mod_eq_of_lt fits]
  by_cases more : bufsize < size
  · rw [if_pos (by omega),if_pos more]
    by_cases none' : bufsize = 0
    · simp [none']
    · obtain ⟨after,written⟩ := write_fits (resize slots size) (bufsize - 1) (List.replicate (size - bufsize) (some none)) (by simp; omega)
      rw [if_neg (by omega),if_neg none',written]
      simp only [Option.map_some,Option.some.injEq,Prod.mk.injEq,Block.mk.injEq,true_and,and_true]
      apply List.ext_getElem?
      intro i
      rw [write_get written,clear,List.getElem?_mapIdx]
      by_cases inside : i < size
      · obtain ⟨cell,there⟩ : ∃ cell, (resize slots size)[i]? = some cell := ⟨_,List.getElem?_eq_getElem (by simpa using inside)⟩
        rw [there,Option.map_some,List.length_replicate,List.getElem?_replicate]
        by_cases cleared : bufsize - 1 ≤ i ∧ i < bufsize - 1 + (size - bufsize)
        · rw [if_pos cleared,if_pos (by simp only [sizeofPointer]; omega),if_pos (by omega)]
        · rw [if_neg cleared,if_neg (by simp only [sizeofPointer]; omega),if_pos (by simp only [sizeofPointer]; omega)]
      · rw [List.getElem?_eq_none (by simpa using inside),if_neg (by simp; omega)]
        rfl
  · rw [if_neg (by omega),if_neg more]
    rfl

-- The loop for a null pointer, over at most `n` pointers from the i-th. None is a read outside.
def freeFrom (cells : Slots) (i : Nat) : Nat → Option Nat
  | 0 => some i
  | n+1 => do
    let cell ← cells[i]?
    let entry ← cell
    if entry = none then some i else freeFrom cells (i + 1) n

-- Ten pointers at first. More are asked for where the pointer the loop came to is null after it; a
-- copy of a null value is null.
def addScript (scripts : ScriptArray) (value : Option Str) : Option ScriptArray := do
  let (block,size) ← if scripts.size = 0 then
      some (⟨sizeofPointer * 10,List.replicate 10 (some none)⟩,10)
    else scripts.block.map (fun block => (block,scripts.size))
  let i ← freeFrom block.cells 0 (size - 1)
  let cells ← if i < size - 1 then write block.cells i [some value] else some block.cells
  let cell ← cells[i]?
  let entry ← cell
  if entry = none then do
    let (block,size) ← tsrealloc0 ⟨block.bytes,cells⟩ (asUnsigned (size + 10)) size
    let cells ← write block.cells i [some value]
    some ⟨some ⟨block.bytes,cells⟩,size⟩
  else some ⟨some ⟨block.bytes,cells⟩,size⟩

section
variable (features : Features)

-- A line of a network block, as far as it is one of a script. php's are the configuration's.
def scriptLine (st : ScriptArray × (ScriptOption → ScriptArray)) (search : Entry × Forest Entry) :
    Option (ScriptArray × (ScriptOption → ScriptArray)) := do
  let key ← search.1.key
  match (scriptKeys features).lookup key with
  | some option =>
    (addScript (st.2 option) search.1.value).map (fun scripts => (st.1,fun other => if other = option then scripts else st.2 other))
  | none =>
    if key = "phpscript".toList ∧ features.php = true then (addScript st.1 search.1.value).map (fun scripts => (scripts,st.2))
    else some st

structure Arrays where
  phpScripts : ScriptArray
  networks : List (ScriptOption → ScriptArray)

def scriptBlock (st : Arrays) (topmost : Entry × Forest Entry) : Option Arrays := do
  let key ← topmost.1.key
  if key = "network".toList then
    (topmost.2.blocks.foldlM (scriptLine features) (st.phpScripts,fun _ => noScripts)).map (fun did => ⟨did.1,st.networks ++ [did.2]⟩)
  else some st

-- What config_engine_load does to the arrays.
def loadScripts (tcfg : Forest Entry) : Option Arrays := tcfg.blocks.foldlM (scriptBlock features) ⟨noScripts,[]⟩

end

-- An array with exactly these values, which are texts, and a null pointer behind them. Without values
-- there may be no array.
def Holds (scripts : ScriptArray) (values : List (Option Str)) : Prop :=
  ∃ found, values = found.map some ∧ scripts.block.elim (found = []) (fun block => words block.cells = some found)

-- Every script of a file is in its array, once the file is loaded, and the loader stays inside the arrays.
def Held (features : Features) (tcfg : Forest Entry) : Prop :=
  ∃ arrays, loadScripts features tcfg = some arrays ∧ Holds arrays.phpScripts (phpOf features (rowOf isNetwork tcfg.blocks)) ∧
    List.Forall₂ (fun block net => ∀ option, Holds (net option) (taken (scriptOption features) option block.2.row))
      (ofKind isNetwork tcfg.blocks) arrays.networks

-- Texts for the nine pointers that are not the last of ten.
def Few (values : List (Option Str)) : Prop := values.length ≤ 9 ∧ ∀ value ∈ values, value ≠ none

-- An array of ten with texts at its start.
def filled (found : List Str) : Slots := found.map (fun text => some (some text)) ++ List.replicate (10 - found.length) (some none)

def Filled (scripts : ScriptArray) (found : List Str) : Prop :=
  (scripts = noScripts ∧ found = []) ∨ (scripts = ⟨some ⟨sizeofPointer * 10,filled found⟩,10⟩ ∧ found.length ≤ 9)

theorem freeFrom_filled (found : List Str) (few : found.length ≤ 9) (i n : Nat) (here : i ≤ found.length) (all : i + n = 9) :
    freeFrom (filled found) i n = some (min found.length 9) := by
  induction n generalizing i with
  | zero =>
      have last : min found.length 9 = i := by omega
      rw [freeFrom,last]
  | succ n ih =>
      rcases Nat.lt_or_eq_of_le here with inside | rfl
      · have cell : (filled found)[i]? = some (some (some found[i])) := by
          rw [filled,List.getElem?_append_left (by simpa using inside)]
          simp [inside]
        simp only [freeFrom,cell,Option.bind_eq_bind,Option.bind_some,reduceCtorEq,if_false]
        exact ih (i + 1) inside (by omega)
      · have cell : (filled found)[found.length]? = some (some none) := by
          rw [filled,List.getElem?_append_right (by simp),List.getElem?_replicate,if_pos (by simp; omega)]
        have stop : min found.length 9 = found.length := by omega
        simp [freeFrom,cell,stop]

theorem filled_length (few : found.length ≤ 9) : (filled found).length = 10 := by
  simp [filled]
  omega

theorem filled_write (few : found.length < 9) (value : Str) :
    write (filled found) found.length [some (some value)] = some (filled (found ++ [value])) := by
  have room : 10 - found.length = (10 - (found ++ [value]).length) + 1 := by simp; omega
  have size := filled_length (Nat.le_of_lt few)
  unfold write
  rw [if_pos (by rw [size,List.length_singleton]; omega)]
  simp [filled,room,List.replicate_succ,List.drop_append]

-- The array that a script is put into: the one there is, or ten null pointers.
theorem add_filled (holds : Filled scripts found) (value : Option Str) : addScript scripts value = (do
    let cells ← if min found.length 9 < 9 then write (filled found) (min found.length 9) [some value] else some (filled found)
    let cell ← cells[min found.length 9]?
    let entry ← cell
    if entry = none then do
      let (block,size) ← tsrealloc0 ⟨sizeofPointer * 10,cells⟩ 20 10
      let cells ← write block.cells (min found.length 9) [some value]
      some ⟨some ⟨block.bytes,cells⟩,size⟩
    else some ⟨some ⟨sizeofPointer * 10,cells⟩,10⟩) := by
  rcases holds with ⟨rfl,rfl⟩ | ⟨rfl,few⟩
  · have search := freeFrom_filled [] (by simp) 0 9 (by simp) rfl
    have fresh : filled [] = List.replicate 10 (some none) := rfl
    rw [fresh] at search ⊢
    simp only [addScript,noScripts,if_true,Option.bind_eq_bind,Option.bind_some,search]
    rfl
  · have search := freeFrom_filled found few 0 9 (Nat.zero_le _) rfl
    simp only [addScript,Option.bind_eq_bind,Option.bind_some,Option.map_some,search]
    rfl

theorem add_fits (holds : Filled scripts found) (few : found.length < 9) (text : Str) :
    ∃ after, addScript scripts (some text) = some after ∧ Filled after (found ++ [text]) := by
  have place : min found.length 9 = found.length := by omega
  have cell : (filled (found ++ [text]))[found.length]? = some (some (some text)) := by
    rw [filled,List.getElem?_append_left (by simp)]
    simp
  refine ⟨⟨some ⟨sizeofPointer * 10,filled (found ++ [text])⟩,10⟩,?_,.inr ⟨rfl,by simp; omega⟩⟩
  rw [add_filled holds,place,if_pos few,filled_write few]
  simp [cell]

-- Behind nine texts the size is taken for one in bytes: the array shrinks to two pointers.
theorem add_full (holds : Filled scripts found) (full : found.length = 9) (value : Option Str) : addScript scripts value = none := by
  have place : min found.length 9 = 9 := by omega
  have cell : (filled found)[9]? = some (some none) := by
    rw [filled,List.getElem?_append_right (by simp; omega),List.getElem?_replicate,if_pos (by simp; omega)]
  rw [add_filled holds,place]
  simp only [Nat.lt_irrefl,if_false,Option.bind_eq_bind,Option.bind_some,cell,if_true]
  refine Option.bind_eq_none_iff.mpr ?_
  rintro ⟨block,size⟩ grown
  have two : block.cells.length = 2 := by
    simp [tsrealloc0,sizeofPointer] at grown
    obtain ⟨rfl,-⟩ := grown
    simp [clear]
  simp [write,two]

theorem adds_fit (holds : Filled scripts before) (found : List Str) (few : (before ++ found).length ≤ 9) :
    ∃ after, (found.map some).foldlM addScript scripts = some after ∧ Filled after (before ++ found) := by
  induction found generalizing scripts before with
  | nil => exact ⟨scripts,rfl,by simpa using holds⟩
  | cons text rest ih =>
      obtain ⟨middle,did,next⟩ := add_fits holds (by simp at few; omega) text
      obtain ⟨after,done,last⟩ := ih next (by simpa using few)
      exact ⟨after,by simp [did,done],by simpa using last⟩

theorem adds_full (holds : Filled scripts before) (found : List Str) (few : before.length ≤ 9) (many : 9 < (before ++ found).length) :
    (found.map some).foldlM addScript scripts = none := by
  induction found generalizing scripts before with
  | nil => simp at many; omega
  | cons text rest ih =>
      rcases Nat.lt_or_eq_of_le few with room | full
      · obtain ⟨middle,did,next⟩ := add_fits holds room text
        have later := ih next (by simp; omega) (by simpa using many)
        simp [did,later]
      · simp [add_full holds full]

theorem filled_holds (holds : Filled scripts found) : Holds scripts (found.map some) := by
  refine ⟨found,rfl,?_⟩
  rcases holds with ⟨rfl,rfl⟩ | ⟨rfl,few⟩
  · rfl
  · refine words_of_slots ?_ ?_
    · intro i word here
      have inside := (List.getElem?_eq_some_iff.mp here).1
      rw [filled,List.getElem?_append_left (by simpa using inside)]
      simp [here]
    · rw [filled,List.getElem?_append_right (by simp),List.getElem?_replicate,if_pos (by simp; omega)]

theorem texts_map {values : List (Option Str)} (texts : ∀ value ∈ values, value ≠ none) : ∃ found : List Str, values = found.map some := by
  induction values with
  | nil => exact ⟨[],rfl⟩
  | cons value rest ih =>
      obtain ⟨text,rfl⟩ := Option.ne_none_iff_exists'.mp (texts value (by simp))
      obtain ⟨found,rfl⟩ := ih (fun other member => texts other (by simp [member]))
      exact ⟨text :: found,rfl⟩

-- One array, from its first script to its last.
theorem scripts_held (values : List (Option Str)) :
    (∃ scripts, values.foldlM addScript noScripts = some scripts ∧ Holds scripts values) ↔ Few values := by
  constructor
  · rintro ⟨scripts,added,found,rfl,-⟩
    refine ⟨?_,by simp⟩
    by_contra many
    rw [adds_full (.inl ⟨rfl,rfl⟩) found (by simp) (by simpa using many)] at added
    cases added
  · rintro ⟨few,texts⟩
    obtain ⟨found,rfl⟩ := texts_map texts
    obtain ⟨scripts,added,holds⟩ := adds_fit (.inl ⟨rfl,rfl⟩) found (by simpa using few)
    exact ⟨scripts,added,filled_holds holds⟩

section
variable {features : Features} {php php' : ScriptArray} {nets nets' : ScriptOption → ScriptArray}

theorem line_parts (search : Entry × Forest Entry) (keyed : search.1.key ≠ none) :
    scriptLine features (php,nets) search = some (php',nets') ↔ (phpOf features [search.1]).foldlM addScript php = some php' ∧
      ∀ o, (taken (scriptOption features) o [search.1]).foldlM addScript (nets o) = some (nets' o) := by
  obtain ⟨key,has⟩ := Option.ne_none_iff_exists'.mp keyed
  have table : (scriptKeys features).lookup key = scriptOption features key := rfl
  simp only [scriptLine,has,table,phpOf_one,taken_one,Option.bind_eq_bind,Option.bind_some]
  cases script : scriptOption features key with
  | some option =>
      have other : key ≠ "phpscript".toList := by
        have apart := script_apart features script
        simp [otherKeys] at apart
        exact apart.2.2.1
      have left : ¬(features.php = true ∧ some key = some "phpscript".toList) := fun both => other (Option.some.inj both.2)
      rw [if_neg left,List.foldlM_nil,Option.map_eq_some_iff]
      constructor
      · rintro ⟨scripts,added,same⟩
        cases same
        refine ⟨rfl,?_⟩
        intro o
        by_cases here : option = o
        · subst here
          simp [added]
        · simp [here,Ne.symm here]
      · rintro ⟨kept,each⟩
        cases kept
        refine ⟨nets' option,by simpa using each option,?_⟩
        refine Prod.ext rfl (funext ?_)
        intro o
        dsimp only
        by_cases here : o = option
        · simp [here]
        · have same := each o
          rw [if_neg (by simpa using Ne.symm here)] at same
          rw [if_neg here]
          exact Option.some.inj same
  | none =>
      have kept : (∀ o, (if (none : Option ScriptOption) = some o then [search.1.value] else []).foldlM addScript (nets o) = some (nets' o)) ↔
          nets = nets' := by
        simp [funext_iff]
      rw [kept]
      by_cases isPhp : key = "phpscript".toList ∧ features.php = true
      · have right : features.php = true ∧ some key = some "phpscript".toList := ⟨isPhp.2,congrArg some isPhp.1⟩
        simp only [if_pos isPhp,if_pos right,List.foldlM_cons,List.foldlM_nil,Option.map_eq_some_iff,Prod.mk.injEq]
        constructor
        · rintro ⟨scripts,added,rfl,rfl⟩
          exact ⟨by simp [added],rfl⟩
        · rintro ⟨added,rfl⟩
          exact ⟨php',by simpa using added,rfl,rfl⟩
      · have wrong : ¬(features.php = true ∧ some key = some "phpscript".toList) := fun both => isPhp ⟨Option.some.inj both.2,both.1⟩
        rw [if_neg isPhp,if_neg wrong,List.foldlM_nil,Option.pure_def,Option.some.injEq,Option.some.injEq,Prod.mk.injEq]

theorem lines_parts (blocks : List (Entry × Forest Entry)) (keyed : ∀ block ∈ blocks, block.1.key ≠ none) :
    blocks.foldlM (scriptLine features) (php,nets) = some (php',nets') ↔
      (phpOf features (blocks.map Prod.fst)).foldlM addScript php = some php' ∧
        ∀ o, (taken (scriptOption features) o (blocks.map Prod.fst)).foldlM addScript (nets o) = some (nets' o) := by
  induction blocks generalizing php nets with
  | nil => simp [funext_iff]
  | cons block rest ih =>
      have here := keyed block (by simp)
      have later := fun php nets => @ih php nets (fun other member => keyed other (by simp [member]))
      have row : (block :: rest).map Prod.fst = [block.1] ++ rest.map Prod.fst := rfl
      rw [row,phpOf_append,List.foldlM_append,List.foldlM_cons,Option.bind_eq_bind,Option.bind_eq_some_iff,Option.bind_eq_bind,
        Option.bind_eq_some_iff]
      simp only [taken_append,List.foldlM_append,Option.bind_eq_bind,Option.bind_eq_some_iff]
      constructor
      · rintro ⟨⟨php₁,nets₁⟩,did,more⟩
        obtain ⟨first,each⟩ := (line_parts block here).mp did
        obtain ⟨second,each'⟩ := (later php₁ nets₁).mp more
        exact ⟨⟨php₁,first,second⟩,fun o => ⟨nets₁ o,each o,each' o⟩⟩
      · rintro ⟨⟨php₁,first,second⟩,each⟩
        choose nets₁ each each' using each
        exact ⟨⟨php₁,nets₁⟩,(line_parts block here).mpr ⟨first,each⟩,(later php₁ nets₁).mpr ⟨second,each'⟩⟩

-- A block's arrays, from its lines.
def Filling (features : Features) (block : Entry × Forest Entry) (net : ScriptOption → ScriptArray) : Prop :=
  ∀ o, (taken (scriptOption features) o block.2.row).foldlM addScript noScripts = some (net o)

def KeyedBlock (block : Entry × Forest Entry) : Prop :=
  block.1.key ≠ none ∧ (isNetwork block.1 = true → ∀ line ∈ block.2.blocks, line.1.key ≠ none)

theorem blocks_parts {networks : List (ScriptOption → ScriptArray)} {arrays : Arrays} (blocks : List (Entry × Forest Entry))
    (keyed : ∀ block ∈ blocks, KeyedBlock block) : blocks.foldlM (scriptBlock features) ⟨php,networks⟩ = some arrays ↔
      (phpOf features (rowOf isNetwork blocks)).foldlM addScript php = some arrays.phpScripts ∧
        ∃ more, arrays.networks = networks ++ more ∧ List.Forall₂ (Filling features) (ofKind isNetwork blocks) more := by
  induction blocks generalizing php networks with
  | nil =>
      constructor
      · intro done
        cases done
        exact ⟨by simp [rowOf],[],by simp,.nil⟩
      · rintro ⟨done,more,same,none'⟩
        cases none'
        obtain ⟨last,nets⟩ := arrays
        simp only [rowOf,List.flatMap_nil,phpOf_nil,List.foldlM_nil,Option.pure_def,Option.some.injEq,List.append_nil] at done same
        rw [List.foldlM_nil,Option.pure_def,done,same]
  | cons block rest ih =>
      obtain ⟨here,lines⟩ := keyed block (by simp)
      have later := fun php networks => @ih php networks (fun other member => keyed other (by simp [member]))
      obtain ⟨key,has⟩ := Option.ne_none_iff_exists'.mp here
      rw [rowOf_cons,phpOf_append,List.foldlM_append,List.foldlM_cons]
      simp only [scriptBlock,has,Option.bind_eq_bind,Option.bind_some]
      by_cases network : key = "network".toList
      · have is : isNetwork block.1 = true := by simp [isNetwork,has,network]
        have kinds : ofKind isNetwork (block :: rest) = block :: ofKind isNetwork rest := by simp [ofKind,is]
        rw [if_pos network,if_pos is,kinds,Option.bind_eq_some_iff,Option.bind_eq_some_iff]
        constructor
        · rintro ⟨middle,did,done⟩
          obtain ⟨⟨php₁,net⟩,each,rfl⟩ := Option.map_eq_some_iff.mp did
          obtain ⟨last,more,same,fills⟩ := (later _ _).mp done
          obtain ⟨first,fill⟩ := (lines_parts block.2.blocks (lines is)).mp each
          rw [Forest.map_blocks] at first fill
          exact ⟨⟨php₁,first,last⟩,net :: more,by rw [same]; simp,.cons fill fills⟩
        · rintro ⟨⟨php₁,first,last⟩,more,same,fills⟩
          obtain ⟨net,others,fill,filled',rfl⟩ := List.forall₂_cons_left_iff.mp fills
          rw [← Forest.map_blocks] at first
          have fill' : ∀ o, (taken (scriptOption features) o (block.2.blocks.map Prod.fst)).foldlM addScript noScripts = some (net o) := by
            rw [Forest.map_blocks]
            exact fill
          have each := (lines_parts block.2.blocks (lines is)).mpr ⟨first,fill'⟩
          exact ⟨⟨php₁,networks ++ [net]⟩,by rw [each]; rfl,(later _ _).mpr ⟨last,others,by rw [same]; simp,filled'⟩⟩
      · have other : isNetwork block.1 = false := by simpa [isNetwork,has] using network
        rw [if_neg network,Option.bind_some,later]
        simp [other,ofKind]

-- The keys that the loader has compared are there.
theorem load_keyed {κ : Type} {cfg : Config κ} (loaded : configEngineLoad features tcfg = some cfg) : ∀ block ∈ tcfg.blocks, KeyedBlock block := by
  intro block member
  obtain ⟨before,after,taken'⟩ := Runs.foldlM_each loaded block member
  obtain ⟨key,has,taken'⟩ := Option.bind_eq_some_iff.mp taken'
  refine ⟨by simp [has],?_⟩
  intro network line inside
  have named : key = "network".toList := by simpa [isNetwork,has] using network
  have apart : key ≠ "global".toList := by rw [named]; decide
  rw [if_neg apart,if_pos named] at taken'
  obtain ⟨done,lines,-⟩ := Option.bind_eq_some_iff.mp taken'
  obtain ⟨⟨cfg',net⟩,next,one⟩ := Runs.foldlM_each lines line inside
  obtain ⟨key',has',-⟩ := Option.bind_eq_some_iff.mp one
  simp [has']

theorem each_held {blocks : List (Entry × Forest Entry)} :
    (∃ networks, List.Forall₂ (Filling features) blocks networks ∧
      List.Forall₂ (fun block net => ∀ o, Holds (net o) (taken (scriptOption features) o block.2.row)) blocks networks) ↔
      ∀ block ∈ blocks, ∀ o, Few (taken (scriptOption features) o block.2.row) := by
  induction blocks with
  | nil => simp
  | cons block rest ih =>
      rw [List.forall_mem_cons,← ih]
      constructor
      · rintro ⟨networks,fills,holds⟩
        obtain ⟨net,others,fill,filled',rfl⟩ := List.forall₂_cons_left_iff.mp fills
        obtain ⟨here,later⟩ := List.forall₂_cons.mp holds
        exact ⟨fun o => (scripts_held _).mp ⟨net o,fill o,here o⟩,others,filled',later⟩
      · rintro ⟨few,more,fills,later⟩
        choose net fill holds using fun o => (scripts_held _).mpr (few o)
        exact ⟨net :: more,.cons fill fills,.cons holds later⟩

theorem held_keyed (keyed : ∀ block ∈ tcfg.blocks, KeyedBlock block) : Held features tcfg ↔
    Few (phpOf features (rowOf isNetwork tcfg.blocks)) ∧
      ∀ block ∈ ofKind isNetwork tcfg.blocks, ∀ o, Few (taken (scriptOption features) o block.2.row) := by
  rw [← scripts_held,← each_held]
  constructor
  · rintro ⟨arrays,done,php,nets⟩
    obtain ⟨first,more,same,fills⟩ := (blocks_parts tcfg.blocks keyed).mp done
    rw [List.nil_append] at same
    subst same
    exact ⟨⟨_,first,php⟩,_,fills,nets⟩
  · rintro ⟨⟨scripts,first,php⟩,networks,fills,nets⟩
    exact ⟨⟨scripts,networks⟩,(blocks_parts tcfg.blocks keyed).mpr ⟨first,networks,rfl,fills⟩,php,nets⟩

end

-- Over every file that is loaded, with whatever the program is built with.
theorem scripts_kept {κ : Type} {cfg : Config κ} (features : Features) (tcfg : Forest Entry)
    (loaded : configEngineLoad features tcfg = some cfg) : Held features tcfg ↔
      Few (phpOf features (rowOf isNetwork tcfg.blocks)) ∧
        ∀ block ∈ ofKind isNetwork tcfg.blocks, ∀ o, Few (taken (scriptOption features) o block.2.row) :=
  held_keyed (load_keyed loaded)

-- A network with `n` scripts.
def scripted (n : Nat) : Forest Entry :=
  .cons ⟨some "network".toList,some ['n']⟩
    ((List.replicate n (⟨some "tclscript".toList,some ['t']⟩ : Entry)).foldr (fun line rest => .cons line .nil rest) .nil) .nil

def onlyTcl : Features := ⟨false,true,false,false⟩

theorem nine_held : Held onlyTcl (scripted 9) := by
  have loaded : ∃ cfg : Config Unit, configEngineLoad onlyTcl (scripted 9) = some cfg := ⟨_,rfl⟩
  obtain ⟨cfg,loaded⟩ := loaded
  refine (scripts_kept onlyTcl (scripted 9) loaded).mpr ⟨by unfold Few; decide,?_⟩
  intro block member o
  obtain rfl := List.mem_singleton.mp member
  cases o <;> unfold Few <;> decide

theorem tenth_lost : (∃ cfg : Config Unit, configEngineLoad onlyTcl (scripted 10) = some cfg) ∧ ¬Held onlyTcl (scripted 10) := by
  have loaded : ∃ cfg : Config Unit, configEngineLoad onlyTcl (scripted 10) = some cfg := ⟨_,rfl⟩
  refine ⟨loaded,?_⟩
  obtain ⟨cfg,loaded⟩ := loaded
  intro held
  obtain ⟨-,few⟩ := (held_keyed (load_keyed loaded)).mp held
  have ten := (few _ List.mem_cons_self .tcl).1
  revert ten
  decide

end Trollbot.ScriptLists
