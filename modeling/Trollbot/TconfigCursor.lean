import Trollbot.Foundation.Cursor
import Trollbot.TconfigAccepted
import Trollbot.TconfigItems

-- The parser over its buffer, read character by character. What is left from `eip` on has the
-- terminator at its end, and past the terminator there is nothing to read.
namespace Trollbot.Tconfig
open CBuffer Linked Machine

-- The two comment loops, from after the opening to the character the main loop goes on from.
def commentEnd : Str → Nat → Option (Except ParseExit (Str × Nat))
  | [],_ => none
  | [c],line => if c = nul then some (.ok ([c],line)) else none
  | c :: d :: s,line =>
    if c = nul then some (.ok (c :: d :: s,line))
    else if d = nul then some (.error .endInComment)
    else if c = '*' ∧ d = '/' then some (.ok (d :: s,line))
    else if c = '\r' ∧ d = '\n' then commentEnd s (line + 1)
    else if c = '\n' ∨ c = '\r' then commentEnd (d :: s) (line + 1)
    else commentEnd (d :: s) line

-- An inner none returns the head.
def lineEnd : Str → Nat → Option (Option (Str × Nat))
  | [],_ => none
  | c :: s,line =>
    if c = nul then some none
    else if c = '\r' then
      match s with
      | [] => none
      | d :: t =>
        if d = nul then some none
        else if d ≠ '\n' then some (some (d :: t,line + 1))
        else some (some (c :: d :: t,line + 1))
    else if c = '\n' then some (some (c :: s,line + 1))
    else lineEnd s line

-- The scan for the end of a word, and what it copies.
def upTo (stops : Char → Bool) : Str → Option (Str × Str)
  | [] => none
  | c :: s => if c = nul ∨ stops c = true then some ([],c :: s) else (upTo stops s).map (fun parts => (c :: parts.1,parts.2))

def quotedWord (line : Nat) (s : Str) : Option (Except ParseExit (Str × Str)) := do
  let parts ← upTo (fun c => c == '\n' || c == '\r' || c == '"') s
  let c ← parts.2.head?
  some (if c = '"' then .ok parts else .error (.unmatchedQuote line))

def plainWord (stops : Char → Bool) (line : Nat) (s : Str) : Option (Except ParseExit (Str × Str)) := do
  let parts ← upTo stops s
  let c ← parts.2.head?
  some (if stops c then .ok parts else .error (.unmatchedKey line))

def wordAt (stops : Char → Bool) (line : Nat) : Str → Option (Except ParseExit (Str × Str))
  | [] => none
  | c :: s => if c = '"' then quotedWord line s else plainWord stops line (c :: s)

-- Over a quote, also one that no key has opened.
def overQuote : Str → Option Str
  | [] => none
  | c :: s => some (if c = '"' then s else c :: s)

def gapEnd (key : Option Str) (line : Nat) : Str → Option (Except ParseExit Str)
  | [] => none
  | c :: s =>
    if c = nul then some (.error (.endOfFile key line))
    else if c = '\r' ∨ c = '\n' then some (.error (.endOfLine key line))
    else if isBlank c then gapEnd key line s
    else some (.ok (c :: s))

-- Goes on unless there was nothing to read or the program has left.
def andThen {α β : Type} (x : Option (Except ParseExit α)) (f : α → Option (Except ParseExit β)) : Option (Except ParseExit β) :=
  match x with
  | none => none
  | some (.error reason) => some (.error reason)
  | some (.ok a) => f a

def keyAt (line : Nat) (s : Str) : Option (Except ParseExit (Str × Str)) :=
  andThen (wordAt isBlank line s) fun parts => (overQuote parts.2).map fun rest => .ok (parts.1,rest)

def entryAt (blockKey : Option Str) (line : Nat) (s : Str) : Option (Except ParseExit (Str × Str × Str)) :=
  andThen (keyAt line s) fun key =>
  andThen (gapEnd blockKey line key.2) fun rest =>
  andThen (wordAt isSpace line rest) fun value => some (.ok (key.1,value.1,value.2))

-- '/', with the character after it.
def slashAt (st : ParseState) : Str → Outcome ParseState Parsed
  | [] => .fault
  | d :: s =>
    if d = '*' then
      match commentEnd s st.line with
      | none => .fault
      | some (.error reason) => .done (.exit reason)
      | some (.ok (rest,line)) => goOn st.heap st.block line rest
    else if d = '/' then
      match lineEnd s st.line with
      | none => .fault
      | some none => .done (.tree st.heap)
      | some (some (rest,line)) => goOn st.heap st.block line rest
    else .done (.exit (.straySlash st.line))

def carriageAt (st : ParseState) : Str → Outcome ParseState Parsed
  | [] => .fault
  | d :: s => goOn st.heap st.block (st.line + 1) (if d = '\n' then d :: s else '\r' :: d :: s)

def wordStep (st : ParseState) : Outcome ParseState Parsed :=
  match cell st.heap st.block with
  | none => .fault
  | some n =>
    match entryAt n.label.key st.line st.eip with
    | none => .fault
    | some (.error reason) => .done (.exit reason)
    | some (.ok (key,value,rest)) =>
      match insertEntry st.heap st.block key value with
      | none => .fault
      | some (heap,block) => goOn heap block st.line rest

-- One round of while(*eip).
def cursorStep (st : ParseState) : Outcome ParseState Parsed :=
  match st.eip with
  | [] => .fault
  | c :: s =>
    if c = nul then .done (.tree st.heap)
    else if c = '{' then
      match openBrace st.heap st.block with
      | none => .fault
      | some (heap,block) => goOn heap block st.line (c :: s)
    else if c = '}' then
      match closeBrace st.heap st.block with
      | none => .fault
      | some none => .done (.exit (.mismatchedBrace st.line))
      | some (some parent) => goOn st.heap parent st.line (c :: s)
    else if c = '/' then slashAt st s
    else if c = '\r' then carriageAt st s
    else if c = '\n' then goOn st.heap st.block (st.line + 1) (c :: s)
    else if c = '\t' ∨ c = ' ' then goOn st.heap st.block st.line (c :: s)
    else wordStep st

-- file_to_tconfig from fbuf[i+count] = '\0' on. The file may have such a character of its own.
def fileReads (h : Heap Entry) (contents : Str) (result : Parsed) : Prop :=
  Ends cursorStep ⟨tconfigBlockNew h,h.length,contents ++ [nul],1⟩ result

-- The terminators end stretches of text. `Overruns` leads past the last of them: item by item, with no
-- '}' that closes nothing, to a comment that is left open at the end of its stretch, and from there into
-- the next stretch.
inductive Overruns : Nat → List Str → Prop where
  | out : Overruns depth []
  | past : LeftOpen note → Overruns depth more → Overruns depth (('/' :: '*' :: note) :: more)
  | item : Item token used rest → (token.toList.flatMap Token.braces).foldlM depthStep depth = some depth' →
      Overruns depth' (rest :: more) → Overruns depth ((used ++ rest) :: more)

section
variable {s later : Str}

theorem clean_cons (clean : nul ∉ c :: s) : c ≠ nul ∧ nul ∉ s :=
  ⟨fun same => clean (by simp [same]),fun member => clean (by simp [member])⟩

-- On a stretch without a terminator each loop reads what the parser over texts reads.
theorem commentEnd_stretch (clean : nul ∉ s) (line : Nat) :
    commentEnd (s ++ nul :: later) line = some ((blockComment s line).map (fun parts => (parts.1 ++ nul :: later,parts.2))) := by
  fun_induction blockComment s line with
  | case1 line =>
      cases later with
      | nil => simp [commentEnd,Except.map]
      | cons d t => simp [commentEnd,Except.map]
  | case2 c line =>
      obtain ⟨first,-⟩ := clean_cons clean
      simp [commentEnd,first,Except.map]
  | case3 c d s line stops =>
      obtain ⟨first,rest⟩ := clean_cons clean
      obtain ⟨second,-⟩ := clean_cons rest
      rw [List.cons_append,List.cons_append,commentEnd,if_neg first,if_neg second,if_pos stops]
      rfl
  | case4 c d s line goes feeds ih =>
      obtain ⟨first,rest⟩ := clean_cons clean
      obtain ⟨second,others⟩ := clean_cons rest
      rw [List.cons_append,List.cons_append,commentEnd,if_neg first,if_neg second,if_neg goes,if_pos feeds]
      exact ih others
  | case5 c d s line goes feeds breaks ih =>
      obtain ⟨first,rest⟩ := clean_cons clean
      obtain ⟨second,-⟩ := clean_cons rest
      rw [List.cons_append,List.cons_append,commentEnd,if_neg first,if_neg second,if_neg goes,if_neg feeds,if_pos breaks]
      exact ih rest
  | case6 c d s line goes feeds breaks ih =>
      obtain ⟨first,rest⟩ := clean_cons clean
      obtain ⟨second,-⟩ := clean_cons rest
      rw [List.cons_append,List.cons_append,commentEnd,if_neg first,if_neg second,if_neg goes,if_neg feeds,if_neg breaks]
      exact ih rest

theorem lineEnd_stretch (clean : nul ∉ s) (line : Nat) :
    lineEnd (s ++ nul :: later) line = some ((lineComment s line).map (fun parts => (parts.1 ++ nul :: later,parts.2))) := by
  induction s with
  | nil => simp [lineEnd,lineComment]
  | cons c s ih =>
      obtain ⟨first,rest⟩ := clean_cons clean
      rw [List.cons_append,lineEnd.eq_def,lineComment.eq_def]
      simp only [if_neg first]
      by_cases carriage : c = '\r'
      · simp only [if_pos carriage]
        cases s with
        | nil => simp
        | cons d t =>
            obtain ⟨second,-⟩ := clean_cons rest
            simp only [List.cons_append,if_neg second]
            by_cases feed : d = '\n'
            · simp [feed]
            · simp [feed]
      · simp only [if_neg carriage]
        by_cases feed : c = '\n'
        · simp [feed]
        · simp only [if_neg feed]
          exact ih rest

theorem upTo_stretch (stops : Char → Bool) (clean : nul ∉ s) :
    upTo stops (s ++ nul :: later) = some ((scanTo stops s).1,(scanTo stops s).2 ++ nul :: later) := by
  induction s with
  | nil => simp [upTo,scanTo]
  | cons c s ih =>
      obtain ⟨first,rest⟩ := clean_cons clean
      by_cases halts : stops c = true
      · simp [upTo,scanTo,halts]
      · rw [List.cons_append,upTo,if_neg (by simp [first,halts]),ih rest]
        simp [scanTo,halts]

-- What a scan leaves starts with the character that stopped it, or with the terminator.
theorem scanTo_left (stops : Char → Bool) (s : Str) : (scanTo stops s).2 = [] ∨ ∃ c tail, (scanTo stops s).2 = c :: tail ∧ stops c = true := by
  cases left : (scanTo stops s).2 with
  | nil => exact .inl rfl
  | cons c tail =>
      refine .inr ⟨c,tail,rfl,?_⟩
      have halts := List.head?_dropWhile_not (fun c => !stops c) s
      have shown : s.dropWhile (fun c => !stops c) = c :: tail := left
      rw [shown] at halts
      simpa using halts

theorem quotedWord_stretch (clean : nul ∉ s) (line : Nat) :
    quotedWord line (s ++ nul :: later) = some ((scanQuoted line s).map (fun parts => (parts.1,parts.2 ++ nul :: later))) := by
  have quote : ¬nul = '"' := by decide
  unfold quotedWord scanQuoted
  rw [upTo_stretch _ clean]
  generalize scanTo (fun c => c == '\n' || c == '\r' || c == '"') s = parts
  obtain ⟨word,left⟩ := parts
  cases left with
  | nil => simp [quote,Except.map]
  | cons c tail =>
      by_cases same : c = '"'
      · simp [same,Except.map]
      · simp [same,Except.map]

theorem plainWord_stretch {stops : Char → Bool} (clean : nul ∉ s) (goes : stops nul = false) (line : Nat) :
    plainWord stops line (s ++ nul :: later) = some ((scanPlain stops line s).map (fun parts => (parts.1,parts.2 ++ nul :: later))) := by
  have shape := scanTo_left stops s
  unfold plainWord scanPlain
  rw [upTo_stretch _ clean]
  generalize scanTo stops s = parts at shape
  obtain ⟨word,left⟩ := parts
  rcases shape with nothing | ⟨c,tail,some',halts⟩
  · simp only at nothing
    subst nothing
    simp [goes,Except.map]
  · simp only at some'
    subst some'
    simp [halts,Except.map]

theorem gapEnd_stretch (clean : nul ∉ s) (key : Option Str) (line : Nat) :
    gapEnd key line (s ++ nul :: later) = some ((skipBlanks key line s).map (fun rest => rest ++ nul :: later)) := by
  induction s with
  | nil => simp [gapEnd,skipBlanks,Except.map]
  | cons c s ih =>
      obtain ⟨first,rest⟩ := clean_cons clean
      rw [List.cons_append,gapEnd,if_neg first,skipBlanks]
      by_cases ends : c = '\r' ∨ c = '\n'
      · rw [if_pos ends,if_pos ends]
        rfl
      · rw [if_neg ends,if_neg ends]
        by_cases blank : isBlank c = true
        · rw [if_pos blank,if_pos blank]
          exact ih rest
        · rw [if_neg blank,if_neg blank]
          rfl

theorem keyAt_stretch (clean : nul ∉ s) (line : Nat) :
    keyAt line (s ++ nul :: later) = some ((readKey line s).map (fun parts => (parts.1,parts.2 ++ nul :: later))) := by
  have quote : ¬nul = '"' := by decide
  have plain : ∀ s, nul ∉ s → (∀ tail, s ≠ '"' :: tail) → wordAt isBlank line (s ++ nul :: later) = plainWord isBlank line (s ++ nul :: later) := by
    intro s clean notQuote
    cases s with
    | nil => simp [wordAt,quote]
    | cons c s =>
        have other : ¬c = '"' := fun same => notQuote s (by rw [same])
        rw [List.cons_append,wordAt,if_neg other]
  unfold readKey
  split
  · rename_i tail
    obtain ⟨-,rest⟩ := clean_cons clean
    rw [keyAt,List.cons_append,wordAt,if_pos rfl,quotedWord_stretch rest]
    cases scanned : scanQuoted line tail with
    | error reason => rfl
    | ok parts =>
        obtain ⟨word,left⟩ := parts
        obtain ⟨-,⟨more,rfl⟩,-⟩ := scanQuoted_parts scanned
        simp [Except.map,andThen,overQuote,bind,Except.bind]
  · rename_i notQuote
    rw [keyAt,plain s clean (fun tail same => notQuote tail same),plainWord_stretch clean (by decide)]
    cases scanned : scanPlain isBlank line s with
    | error reason => rfl
    | ok parts =>
        obtain ⟨word,left⟩ := parts
        obtain ⟨-,-,c,here,blank⟩ := scanPlain_parts scanned
        obtain ⟨more,rfl⟩ := List.head?_eq_some_iff.mp here
        have other : ¬c = '"' := by
          rintro rfl
          cases blank
        simp [Except.map,andThen,overQuote,other]

theorem valueAt_stretch (clean : nul ∉ s) (line : Nat) :
    wordAt isSpace line (s ++ nul :: later) = some ((readValue line s).map (fun parts => (parts.1,parts.2 ++ nul :: later))) := by
  unfold readValue
  split
  · rename_i tail
    obtain ⟨-,rest⟩ := clean_cons clean
    rw [List.cons_append,wordAt,if_pos rfl,quotedWord_stretch rest]
  · rename_i notQuote
    have goes : isSpace nul = false := by decide
    have read : plainWord isSpace line (s ++ nul :: later) = some ((scanPlain isSpace line s).map (fun parts => (parts.1,parts.2 ++ nul :: later))) :=
      plainWord_stretch clean goes line
    cases s with
    | nil => exact read
    | cons c s =>
        have other : ¬c = '"' := fun same => notQuote s (by rw [same])
        rw [List.cons_append,wordAt,if_neg other]
        exact read

theorem entryAt_stretch (clean : nul ∉ s) (key : Option Str) (line : Nat) :
    entryAt key line (s ++ nul :: later) =
      some ((readEntry key line s).map (fun parts => (parts.1,parts.2.1,parts.2.2 ++ nul :: later))) := by
  rw [entryAt,keyAt_stretch clean,readEntry]
  cases readK : readKey line s with
  | error reason => rfl
  | ok one =>
      obtain ⟨word,rest⟩ := one
      have clean1 : nul ∉ rest := fun member => clean ((readKey_suffix readK).subset member)
      simp only [Except.map,andThen]
      rw [gapEnd_stretch clean1]
      cases skipped : skipBlanks key line rest with
      | error reason => simp [Except.map,bind,Except.bind,skipped]
      | ok rest2 =>
          have clean2 : nul ∉ rest2 := fun member => clean1 ((skipBlanks_parts skipped).1.subset member)
          simp only [Except.map]
          rw [valueAt_stretch clean2]
          cases readV : readValue line rest2 with
          | error reason => simp [Except.map,bind,Except.bind,skipped,readV]
          | ok value => simp [Except.map,bind,Except.bind,skipped,readV]

-- The state with the stretch's terminator and what is after it.
def joined (later : Str) (st : ParseState) : ParseState := { st with eip := st.eip ++ nul :: later }

def lifted (later : Str) : Outcome ParseState Parsed → Outcome ParseState Parsed
  | .next st => .next (joined later st)
  | .done result => .done result
  | .fault => .fault

theorem goOn_stretch (rest : Str) (fine : goOn h block line rest ≠ .fault) :
    goOn h block line (rest ++ nul :: later) = lifted later (goOn h block line rest) := by
  cases rest with
  | nil => exact absurd rfl fine
  | cons c rest => rfl

theorem slashAt_stretch (clean : nul ∉ s) (fine : parseStep ⟨h,block,'/' :: s,line⟩ ≠ .fault) :
    slashAt ⟨h,block,eip,line⟩ (s ++ nul :: later) = lifted later (parseStep ⟨h,block,'/' :: s,line⟩) := by
  cases s with
  | nil => simp [slashAt,parseStep,lifted,nul]
  | cons d s =>
      obtain ⟨-,rest⟩ := clean_cons clean
      by_cases star : d = '*'
      · subst star
        rw [List.cons_append,slashAt,if_pos rfl,commentEnd_stretch rest]
        simp only [parseStep] at fine ⊢
        cases read : blockComment s line with
        | error reason => rfl
        | ok found =>
            rw [read] at fine
            exact goOn_stretch _ fine
      · by_cases second : d = '/'
        · subst second
          rw [List.cons_append,slashAt,if_neg star,if_pos rfl,lineEnd_stretch rest]
          simp only [parseStep] at fine ⊢
          cases read : lineComment s line with
          | none => rfl
          | some found =>
              rw [read] at fine
              exact goOn_stretch _ fine
        · rw [List.cons_append,slashAt,if_neg star,if_neg second]
          unfold parseStep
          simp only
          split <;> simp_all [lifted]

theorem carriageAt_stretch (s : Str) :
    carriageAt ⟨h,block,eip,line⟩ (s ++ nul :: later) = lifted later (parseStep ⟨h,block,'\r' :: s,line⟩) := by
  cases s with
  | nil => rfl
  | cons d s =>
      by_cases feed : d = '\n'
      · subst feed
        rfl
      · rw [List.cons_append,carriageAt,if_neg feed,step_carriage (by simpa using feed)]
        rfl

theorem wordStep_stretch (clean : nul ∉ c :: s) (plain : c ∉ ['{','}','/','\r','\n']) (blankless : isBlank c = false)
    (fine : parseStep ⟨h,block,c :: s,line⟩ ≠ .fault) :
    wordStep ⟨h,block,c :: s ++ nul :: later,line⟩ = lifted later (parseStep ⟨h,block,c :: s,line⟩) := by
  rw [step_word plain blankless,takeEntry] at fine ⊢
  unfold wordStep
  cases live : cell h block with
  | none => rfl
  | some n =>
      rw [live] at fine
      simp only [entryAt_stretch clean] at fine ⊢
      cases read : readEntry n.label.key line (c :: s) with
      | error reason => rfl
      | ok found =>
          obtain ⟨key,value,rest⟩ := found
          rw [read] at fine
          simp only [Except.map] at fine ⊢
          cases inserts : insertEntry h block key value with
          | none => rfl
          | some after =>
              rw [inserts] at fine
              exact goOn_stretch _ fine

-- Within a stretch the parser over the buffer goes as the one over texts does.
theorem cursor_follows (clean : nul ∉ s) (fine : parseStep ⟨h,block,s,line⟩ ≠ .fault) :
    cursorStep (joined later ⟨h,block,s,line⟩) = lifted later (parseStep ⟨h,block,s,line⟩) := by
  cases s with
  | nil => rfl
  | cons c s =>
      obtain ⟨first,rest⟩ := clean_cons clean
      simp only [joined,List.cons_append,cursorStep,if_neg first]
      by_cases brace : c = '{'
      · subst brace
        simp only [if_true,parseStep] at fine ⊢
        cases openBrace h block with
        | none => rfl
        | some after => rfl
      by_cases close : c = '}'
      · subst close
        simp only [if_neg brace,if_true,parseStep] at fine ⊢
        cases closeBrace h block with
        | none => rfl
        | some parent => cases parent <;> rfl
      by_cases slash : c = '/'
      · subst slash
        simp only [if_neg brace,if_neg close,if_true]
        exact slashAt_stretch rest fine
      by_cases carriage : c = '\r'
      · subst carriage
        simp only [if_neg brace,if_neg close,if_neg slash,if_true]
        exact carriageAt_stretch s
      by_cases feed : c = '\n'
      · subst feed
        rfl
      by_cases blank : c = '\t' ∨ c = ' '
      · rcases blank with rfl | rfl
        · rfl
        · rfl
      · simp only [if_neg brace,if_neg close,if_neg slash,if_neg carriage,if_neg feed,if_neg blank]
        rw [not_or] at blank
        exact wordStep_stretch clean (by simp [brace,close,slash,carriage,feed]) (by simp [isBlank,blank]) fine

-- A comment that is left open takes it past the terminator.
theorem cursor_passes {note : Str} (clean : nul ∉ '/' :: '*' :: note) (left : LeftOpen note) (h : Heap Entry) (block line : Nat) :
    ∃ line', cursorStep (joined later ⟨h,block,'/' :: '*' :: note,line⟩) = .next ⟨h,block,later,line'⟩ := by
  obtain ⟨-,clean⟩ := clean_cons clean
  obtain ⟨-,clean⟩ := clean_cons clean
  obtain ⟨line',read⟩ := blockComment_left left line
  refine ⟨line',?_⟩
  simp only [joined,List.cons_append,cursorStep,slashAt,if_true,commentEnd_stretch clean,read,Except.map]
  rfl

theorem lexEntry_suffix (lexed : lexEntry s = some (token,rest)) : rest <:+ s := by
  unfold lexEntry at lexed
  split at lexed
  · cases lexed
  · rename_i readK
    split at lexed
    · cases lexed
    · rename_i skipped
      split at lexed
      · cases lexed
      · rename_i readV
        cases lexed
        obtain ⟨suffix,c,tail,starts,blankless,carriage,feed⟩ := skipBlanks_parts skipped
        have last := (readValue_parts readV starts blankless carriage feed).1
        exact last.trans (suffix.trans (readKey_suffix readK))

theorem lexOne_suffix {rest : Str} (lexed : lexOne s = some (token,rest)) : rest <:+ s := by
  have closer : ∀ {c : Char} {s t : Str}, t <:+ s → t <:+ c :: s := fun suffix => suffix.trans (List.suffix_cons _ _)
  unfold lexOne at lexed
  split at lexed
  · cases lexed
  · cases lexed
    exact List.suffix_cons _ _
  · cases lexed
    exact List.suffix_cons _ _
  · split at lexed
    · cases lexed
    · rename_i read
      cases lexed
      exact (List.tail_suffix _).trans (closer (closer (blockComment_suffix read)))
  · obtain ⟨found,read,same⟩ := Option.map_eq_some_iff.mp lexed
    cases same
    exact (List.tail_suffix _).trans (closer (closer (lineComment_suffix read)))
  · cases lexed
  · cases lexed
    exact closer (List.suffix_cons _ _)
  · cases lexed
    exact List.suffix_cons _ _
  · cases lexed
    exact List.suffix_cons _ _
  · cases lexed
    exact List.suffix_cons _ _
  · cases lexed
    exact List.suffix_cons _ _
  · obtain ⟨found,read,same⟩ := Option.map_eq_some_iff.mp lexed
    cases same
    exact (List.tail_suffix _).trans (lexEntry_suffix read)

theorem cursor_reaches {st last : ParseState} (clean : nul ∉ st.eip) (reaches : Reaches parseStep st last) :
    Reaches cursorStep (joined later st) (joined later last) := by
  induction reaches with
  | refl => exact .refl
  | head taken _ ih =>
      obtain ⟨token,takes⟩ := step_reads taken
      have step := @cursor_follows _ later _ _ _ clean (by rw [taken]; simp)
      rw [taken] at step
      exact .head step (ih (fun member => clean ((lexOne_suffix takes.lexed).subset member)))

end

-- A refused token is a '}' at the top.
theorem read_refused {o : Outline} (refused : o.read token = none) : token.braces.foldlM depthStep o.path.length = none := by
  cases token with
  | opened =>
      simp only [Outline.read] at refused
      split at refused <;> cases refused
  | closed =>
      simp only [Outline.read] at refused
      split at refused
      · rename_i top
        simp [Token.braces,top,depthStep]
      · cases refused
  | entry key value =>
      simp only [Outline.read] at refused
      split at refused <;> cases refused

section
variable {head : Nat} {o : Outline} {levels : Levels Entry} {h : Heap Entry} {block : Nat} {passed : List Token}
  (pictured : Pictured head o levels h block)
include pictured

theorem refused_exits (refused : o.read token = none) (item : Item (some token) used rest) (line : Nat) :
    parseStep ⟨h,block,used ++ rest,line⟩ ≠ .fault := by
  cases item with
  | opened =>
      obtain ⟨o',levels',later,block',read,-⟩ := opened_pictured pictured
      rw [refused] at read
      cases read
  | closed =>
      rcases closed_pictured pictured with ⟨-,closes⟩ | ⟨o',block',read,-⟩
      · simp [parseStep,closes]
      · rw [refused] at read
        cases read
  | entry keyPart valuePart =>
      have none' := read_refused refused
      simp [Token.braces] at none'

-- An item with a depth after it is gone through, and the picture goes on.
theorem item_pictured (tidy : Tidy o passed) (item : Item token used rest) (line : Nat) :
    ((token.toList.flatMap Token.braces).foldlM depthStep o.path.length = none ∧ ∃ reason, parseStep ⟨h,block,used ++ rest,line⟩ = .done (.exit reason)) ∨
    ∃ o' levels' later block' passed' line', (token.toList.flatMap Token.braces).foldlM depthStep o.path.length = some o'.path.length ∧
      Reaches parseStep ⟨h,block,used ++ rest,line⟩ ⟨later,block',rest,line'⟩ ∧ Pictured head o' levels' later block' ∧ Tidy o' passed' := by
  cases token with
  | none =>
      obtain ⟨line',reaches⟩ := skip_item item h block line
      exact .inr ⟨o,levels,h,block,passed,line',rfl,reaches,pictured,tidy⟩
  | some token =>
      have alone : (some token).toList.flatMap Token.braces = token.braces := by simp
      have single : (some token).toList.foldlM applyToken (h,block) = applyToken (h,block) token := by simp
      rw [alone]
      have goes := item_goes item h block line
      rw [single] at goes
      rcases token_pictured pictured tidy token with ⟨refused,stuck⟩ | ⟨o',levels',later,block',read,applied,pictured'⟩
      · refine .inl ⟨read_refused refused,?_⟩
        rcases goes with ⟨later,q,line',applied,-⟩ | ⟨-,faults | ends⟩
        · rw [stuck] at applied
          cases applied
        · exact absurd faults (refused_exits pictured refused item line)
        · exact ends
      · refine .inr ⟨o',levels',later,block',passed ++ [token],?_⟩
        rcases goes with ⟨later',q,line',applied',reaches⟩ | ⟨none',-⟩
        · rw [applied] at applied'
          cases applied'
          exact ⟨line',read_depth read,reaches,pictured',read_tidy tidy read⟩
        · rw [applied] at none'
          cases none'

end

def bufferOf : List Str → Str
  | [] => []
  | s :: more => s ++ nul :: bufferOf more

theorem bufferOf_split (contents : Str) : bufferOf (contents.splitOn nul) = contents ++ [nul] := by
  have whole : [nul].intercalate (contents.splitOn nul) = contents := List.intercalate_splitOn nul
  have ends : ∀ pieces : List Str, pieces ≠ [] → bufferOf pieces = [nul].intercalate pieces ++ [nul] := by
    intro pieces some'
    induction pieces with
    | nil => exact absurd rfl some'
    | cons first more ih =>
        cases more with
        | nil => simp [bufferOf]
        | cons second more =>
            rw [bufferOf,ih (by simp),List.intercalate_cons_cons]
            simp
  rw [ends _ (List.splitOn_ne_nil _ _),whole]

section
variable {head : Nat} {o : Outline} {levels : Levels Entry} {h : Heap Entry} {block : Nat} {passed : List Token} {stretches : List Str}

theorem overruns_faults (leaves : Overruns depth stretches) (clean : ∀ s ∈ stretches, nul ∉ s) (pictured : Pictured head o levels h block)
    (tidy : Tidy o passed) (deep : o.path.length = depth) (line : Nat) (result : Parsed) :
    ¬Ends cursorStep ⟨h,block,bufferOf stretches,line⟩ result := by
  induction leaves generalizing o levels h block passed line with
  | out => exact fault_stays (n := 1) rfl
  | past left _ ih =>
      intro ends
      obtain ⟨line',taken⟩ := cursor_passes (clean _ (by simp)) left h block line
      exact ih (fun s member => clean s (by simp [member])) pictured tidy deep line' (ends_step taken ends)
  | item item depths _ ih =>
      intro ends
      subst deep
      have here := clean _ List.mem_cons_self
      rcases item_pictured pictured tidy item line with ⟨none',-⟩ | ⟨o',levels',later,block',passed',line',some',reaches,pictured',tidy'⟩
      · rw [none'] at depths
        cases depths
      · rw [some',Option.some.injEq] at depths
        refine ih ?_ pictured' tidy' depths line' ((cursor_reaches here reaches).ends_after ends)
        intro s member
        rcases List.mem_cons.mp member with rfl | later
        · exact fun found => here (List.mem_append_right _ found)
        · exact clean s (by simp [later])

theorem inside_ends (n : Nat) (short : (bufferOf stretches).length ≤ n) (clean : ∀ s ∈ stretches, nul ∉ s)
    (pictured : Pictured head o levels h block) (tidy : Tidy o passed) (inside : ¬Overruns o.path.length stretches) (line : Nat) :
    ∃ result, Ends cursorStep ⟨h,block,bufferOf stretches,line⟩ result := by
  induction n generalizing o levels h block passed line stretches with
  | zero =>
      cases stretches with
      | nil => exact absurd .out inside
      | cons s more => simp [bufferOf] at short
  | succ n ih =>
      cases stretches with
      | nil => exact absurd .out inside
      | cons s more =>
          have here := clean s (by simp)
          obtain ⟨label,-,live⟩ := here_cell pictured
          have now : ∀ result, parseStep ⟨h,block,s,line⟩ = .done result → ∃ result, Ends cursorStep ⟨h,block,bufferOf (s :: more),line⟩ result := by
            intro result taken
            have step := @cursor_follows _ (bufferOf more) _ _ _ here (by rw [taken]; simp)
            rw [taken] at step
            exact ⟨result,ends_now step⟩
          rcases text_shape h block line s with ⟨token,used,rest,item,rfl⟩ | ⟨note,left,rfl⟩ | stops | ⟨reason,taken⟩ | ⟨dead,-⟩
          · rcases item_pictured pictured tidy item line with ⟨-,reason,taken⟩ | ⟨o',levels',later,block',passed',line',depths,reaches,pictured',tidy'⟩
            · exact now _ taken
            · have positive := List.length_pos_iff.mpr (item_some item)
              have less : (bufferOf (rest :: more)).length ≤ n := by
                simp only [bufferOf,List.length_append,List.length_cons] at short ⊢
                omega
              have others : ∀ s ∈ rest :: more, nul ∉ s := by
                intro s member
                rcases List.mem_cons.mp member with rfl | later
                · exact fun found => here (List.mem_append_right _ found)
                · exact clean s (by simp [later])
              obtain ⟨result,ends⟩ := ih less others pictured' tidy' (fun leaves => inside (.item item depths leaves)) line'
              exact ⟨result,(cursor_reaches here reaches).ends ends⟩
          · obtain ⟨line',taken⟩ := cursor_passes here left h block line
            have less : (bufferOf more).length ≤ n := by
              simp only [bufferOf,List.length_append,List.length_cons] at short
              omega
            obtain ⟨result,ends⟩ := ih less (fun s member => clean s (by simp [member])) pictured tidy
              (fun leaves => inside (.past left leaves)) line'
            exact ⟨result,ends_later taken ends⟩
          · exact now _ (stops_done stops h block line)
          · exact now _ taken
          · rw [live] at dead
            cases dead

end

-- It ends, with a tree or a message, without reading past the terminator of its buffer.
theorem cursor_inside (h : Heap Entry) (contents : Str) : (∃ result, fileReads h contents result) ↔ ¬Overruns 0 (contents.splitOn nul) := by
  obtain ⟨pictured,tidy⟩ := start_pictured h
  have clean : ∀ s ∈ contents.splitOn nul, nul ∉ s := split_pieces contents
  unfold fileReads
  rw [← bufferOf_split]
  constructor
  · rintro ⟨result,ends⟩ leaves
    exact overruns_faults leaves clean pictured tidy rfl 1 result ends
  · intro inside
    exact inside_ends _ (Nat.le_refl _) clean pictured tidy inside 1

-- A file that ends right after the opening of a comment.
theorem opening_overruns : ¬∀ (h : Heap Entry) (contents : Str), ∃ result, fileReads h contents result := by
  intro claim
  obtain ⟨result,ends⟩ := claim [] ['/','*']
  have faults : runFor cursorStep 2 ⟨tconfigBlockNew [],0,['/','*'] ++ [nul],1⟩ = .fault := by decide
  exact fault_stays faults ends

end Trollbot.Tconfig
