import Trollbot.TconfigParsed

-- The braces and entries of a configuration file, and the parser as a run over them.
namespace Trollbot.Tconfig
open CBuffer Linked Machine

-- A key or a value as it is written; a bare word has no quotes around it.
structure Word where
  text : Str
  bare : Bool
deriving DecidableEq

inductive Token where
  | opened
  | closed
  | entry (key value : Word)
deriving DecidableEq

def startsBare (s : Str) : Bool := s.head? != some '"'

def lexEntry (s : Str) : Option (Token × Str) :=
  match readKey 0 s with
  | .error _ => none
  | .ok (key,rest) =>
    match skipBlanks none 0 rest with
    | .error _ => none
    | .ok second =>
      match readValue 0 second with
      | .error _ => none
      | .ok (value,after) => some (.entry ⟨key,startsBare s⟩ ⟨value,startsBare second⟩,after)

-- One round of the parser's loop, without the tree: the token it takes up, if it is one, and the text
-- it goes on with. None where the loop ends.
def lexOne : Str → Option (Option Token × Str)
  | [] => none
  | '{' :: s => some (some .opened,s)
  | '}' :: s => some (some .closed,s)
  | '/' :: '*' :: s =>
    match blockComment s 0 with
    | .error _ => none
    | .ok (rest,_) => some (none,rest.tail)
  | '/' :: '/' :: s => (lineComment s 0).map (fun read => (none,read.1.tail))
  | '/' :: _ => none
  | '\r' :: '\n' :: s => some (none,s)
  | '\r' :: s => some (none,s)
  | '\n' :: s => some (none,s)
  | '\t' :: s => some (none,s)
  | ' ' :: s => some (none,s)
  | s => (lexEntry s).map (fun read => (some read.1,read.2.tail))

def lex : Nat → Str → List Token
  | 0,_ => []
  | fuel+1,s =>
    match lexOne s with
    | none => []
    | some (token,rest) => token.toList ++ lex fuel rest

-- The contents are read up to a NUL.
def heard (contents : Str) : Str := contents.takeWhile (fun c => c != nul)

def tokens (contents : Str) : List Token := lex (heard contents).length (heard contents)

-- What a token does to the tree and to the block the parser stands on. There is no block above the top.
def applyToken (at' : Heap Entry × Nat) : Token → Option (Heap Entry × Nat)
  | .opened => openBrace at'.1 at'.2
  | .closed => do
    let parent ← closeBrace at'.1 at'.2
    parent.map (fun block => (at'.1,block))
  | .entry key value => insertEntry at'.1 at'.2 key.text value.text

theorem scanQuoted_line (read : scanQuoted line s = .ok result) (line' : Nat) : scanQuoted line' s = .ok result := by
  unfold scanQuoted at read ⊢
  split at read
  · exact read
  · cases read

theorem scanPlain_line (read : scanPlain stops line s = .ok result) (line' : Nat) : scanPlain stops line' s = .ok result := by
  unfold scanPlain at read ⊢
  split at read
  · cases read
  · exact read

theorem readKey_line (read : readKey line s = .ok result) (line' : Nat) : readKey line' s = .ok result := by
  unfold readKey at read ⊢
  split at read
  · rename_i s
    cases scanned : scanQuoted line s with
    | error reason => simp [scanned,bind,Except.bind] at read
    | ok found =>
        rw [scanned] at read
        simpa [scanQuoted_line scanned line'] using read
  · exact scanPlain_line read line'

theorem readValue_line (read : readValue line s = .ok result) (line' : Nat) : readValue line' s = .ok result := by
  unfold readValue at read ⊢
  split at read
  · exact scanQuoted_line read line'
  · exact scanPlain_line read line'

theorem skipBlanks_line (read : skipBlanks blockKey line s = .ok rest) (blockKey' : Option Str) (line' : Nat) :
    skipBlanks blockKey' line' s = .ok rest := by
  induction s with
  | nil => cases read
  | cons c s ih =>
      unfold skipBlanks at read ⊢
      split at read
      · cases read
      · rename_i goes
        rw [if_neg goes]
        split at read
        · rename_i blank
          rw [if_pos blank]
          exact ih read
        · rename_i blankless
          rw [if_neg blankless]
          exact read

theorem blockComment_line (read : blockComment s line = .ok (rest,last)) (line' : Nat) :
    ∃ last', blockComment s line' = .ok (rest,last') := by
  fun_induction blockComment s line generalizing line' with
  | case1 line =>
      cases read
      exact ⟨line',rfl⟩
  | case2 line c => cases read
  | case3 line c d s stops =>
      cases read
      exact ⟨line',by rw [blockComment,if_pos stops]⟩
  | case4 line c d s goes feeds ih =>
      rw [blockComment,if_neg goes,if_pos feeds]
      exact ih read (line' + 1)
  | case5 line c d s goes feeds breaks ih =>
      rw [blockComment,if_neg goes,if_neg feeds,if_pos breaks]
      exact ih read (line' + 1)
  | case6 line c d s goes feeds breaks ih =>
      rw [blockComment,if_neg goes,if_neg feeds,if_neg breaks]
      exact ih read line'

theorem lineComment_line (s : Str) (line line' : Nat) :
    (lineComment s line).map Prod.fst = (lineComment s line').map Prod.fst := by
  induction s with
  | nil => rfl
  | cons c s ih =>
      unfold lineComment
      by_cases carriage : c = '\r'
      · rw [if_pos carriage,if_pos carriage]
        cases s with
        | nil => rfl
        | cons d t => by_cases feed : d = '\n' <;> simp [feed]
      · rw [if_neg carriage,if_neg carriage]
        by_cases feed : c = '\n'
        · simp [feed]
        · rw [if_neg feed,if_neg feed]
          exact ih

theorem readEntry_lex (read : readEntry blockKey line s = .ok (key,value,rest)) :
    ∃ bareKey bareValue, lexEntry s = some (.entry ⟨key,bareKey⟩ ⟨value,bareValue⟩,rest) := by
  obtain ⟨rest1,rest2,readK,skipped,readV⟩ := readEntry_reads read
  refine ⟨startsBare s,startsBare rest2,?_⟩
  simp only [lexEntry,readKey_line readK 0,skipBlanks_line skipped none 0,readValue_line readV 0]

theorem goOn_next (taken : goOn heap block line rest = .next later) :
    later.heap = heap ∧ later.block = block ∧ later.eip = rest.tail ∧ rest ≠ [] := by
  cases rest with
  | nil => cases taken
  | cons c s =>
      cases taken
      exact ⟨rfl,rfl,rfl,by simp⟩

-- A round of the loop applies its token, and leaves less text.
structure Takes (st later : ParseState) (token : Option Token) : Prop where
  lexed : lexOne st.eip = some (token,later.eip)
  shorter : later.eip.length < st.eip.length
  applied : token.toList.foldlM applyToken (st.heap,st.block) = some (later.heap,later.block)

theorem tail_shorter {rest s : Str} (suffix : rest <:+ s) (some' : rest ≠ []) : rest.tail.length < s.length := by
  have bound := suffix.length_le
  have positive := List.length_pos_iff.mpr some'
  rw [List.length_tail]
  omega

theorem skip_reads (lexed : lexOne st.eip = some (none,rest.tail)) (suffix : rest <:+ st.eip)
    (taken : goOn st.heap st.block line rest = .next later) : Takes st later none := by
  obtain ⟨heap,block,eip,some'⟩ := goOn_next taken
  refine ⟨by rw [lexed,eip],?_,by simp [heap,block]⟩
  rw [eip]
  exact tail_shorter suffix some'

theorem token_reads (token : Token) (lexed : lexOne st.eip = some (some token,rest.tail)) (suffix : rest <:+ st.eip)
    (applied : applyToken (st.heap,st.block) token = some (heap,block))
    (taken : goOn heap block line rest = .next later) : Takes st later (some token) := by
  obtain ⟨heap',block',eip,some'⟩ := goOn_next taken
  refine ⟨by rw [lexed,eip],?_,by simp [applied,heap',block']⟩
  rw [eip]
  exact tail_shorter suffix some'

theorem readEntry_suffix (read : readEntry blockKey line s = .ok (key,value,rest)) : rest <:+ s := by
  obtain ⟨rest1,rest2,readK,skipped,readV⟩ := readEntry_reads read
  obtain ⟨suffix2,d,tail2,starts2,blankless,carriage,feed⟩ := skipBlanks_parts skipped
  have suffix3 := (readValue_parts readV starts2 blankless carriage feed).1
  exact suffix3.trans (suffix2.trans (readKey_suffix readK))

theorem lexOne_entry (open' : ∀ s, contents ≠ '{' :: s) (close : ∀ s, contents ≠ '}' :: s) (slash : ∀ s, contents ≠ '/' :: s)
    (carriage : ∀ s, contents ≠ '\r' :: s) (feed : ∀ s, contents ≠ '\n' :: s) (tab : ∀ s, contents ≠ '\t' :: s)
    (space : ∀ s, contents ≠ ' ' :: s) (some' : contents ≠ []) :
    lexOne contents = (lexEntry contents).map (fun read => (some read.1,read.2.tail)) := by
  unfold lexOne
  split
  · exact absurd rfl some'
  · exact absurd rfl (open' _)
  · exact absurd rfl (close _)
  · exact absurd rfl (slash _)
  · exact absurd rfl (slash _)
  · exact absurd rfl (slash _)
  · exact absurd rfl (carriage _)
  · exact absurd rfl (carriage _)
  · exact absurd rfl (feed _)
  · exact absurd rfl (tab _)
  · exact absurd rfl (space _)
  · rfl

theorem step_reads (taken : parseStep st = .next later) : ∃ token, Takes st later token := by
  unfold parseStep at taken
  split at taken
  · cases taken
  · rename_i s ends
    split at taken
    · cases taken
    · rename_i heap block opened
      exact ⟨_,token_reads .opened (by rw [ends]; rfl) ⟨[],ends.symm⟩ opened taken⟩
  · rename_i s ends
    split at taken
    · cases taken
    · cases taken
    · rename_i parent closed
      refine ⟨_,token_reads .closed (by rw [ends]; rfl) ⟨[],ends.symm⟩ ?_ taken⟩
      simp [applyToken,closed]
  · rename_i s ends
    split at taken
    · cases taken
    · rename_i rest line read
      obtain ⟨line',read'⟩ := blockComment_line read 0
      refine ⟨_,skip_reads ?_ ?_ taken⟩
      · rw [ends]
        simp only [lexOne,read']
      · rw [ends]
        exact (blockComment_suffix read).trans ((List.suffix_cons _ _).trans (List.suffix_cons _ _))
  · rename_i s ends
    split at taken
    · cases taken
    · rename_i rest line read
      have lines := lineComment_line s st.line 0
      rw [read,Option.map_some,eq_comm,Option.map_eq_some_iff] at lines
      obtain ⟨found,read',rfl⟩ := lines
      refine ⟨_,skip_reads ?_ ?_ taken⟩
      · rw [ends]
        simp only [lexOne,read',Option.map_some]
      · rw [ends]
        exact (lineComment_suffix read).trans ((List.suffix_cons _ _).trans (List.suffix_cons _ _))
  · cases taken
  · rename_i s ends
    exact ⟨_,skip_reads (by rw [ends]; rfl) (by rw [ends]; exact List.suffix_cons _ _) taken⟩
  · rename_i s notFeed ends
    refine ⟨_,skip_reads ?_ ⟨[],ends.symm⟩ taken⟩
    rw [ends]
    unfold lexOne
    split <;> simp_all
  · rename_i s ends
    exact ⟨_,skip_reads (by rw [ends]; rfl) ⟨[],ends.symm⟩ taken⟩
  · rename_i s ends
    exact ⟨_,skip_reads (by rw [ends]; rfl) ⟨[],ends.symm⟩ taken⟩
  · rename_i s ends
    exact ⟨_,skip_reads (by rw [ends]; rfl) ⟨[],ends.symm⟩ taken⟩
  · rename_i notNil notOpen notClose _ _ notSlash _ notReturn notFeed notTab notSpace
    split at taken
    · cases taken
    · split at taken
      · cases taken
      · rename_i key value rest read
        split at taken
        · cases taken
        · rename_i heap block inserted
          obtain ⟨bareKey,bareValue,lexed⟩ := readEntry_lex read
          refine ⟨_,token_reads (.entry ⟨key,bareKey⟩ ⟨value,bareValue⟩) ?_ (readEntry_suffix read) inserted taken⟩
          rw [lexOne_entry notOpen notClose notSlash notReturn notFeed notTab notSpace notNil,lexed]
          rfl

-- Where the parser stops with a tree, no token is left.
theorem step_ends (taken : parseStep st = .done (.tree heap)) : lexOne st.eip = none := by
  unfold parseStep at taken
  split at taken
  · rename_i ends
    rw [ends]
    rfl
  · split at taken
    · cases taken
    · exact absurd taken goOn_done
  · split at taken
    · cases taken
    · cases taken
    · exact absurd taken goOn_done
  · split at taken
    · cases taken
    · exact absurd taken goOn_done
  · rename_i s ends
    split at taken
    · rename_i ended
      have lines := lineComment_line s st.line 0
      rw [ended,Option.map_none,eq_comm,Option.map_eq_none_iff] at lines
      rw [ends]
      simp only [lexOne,lines,Option.map_none]
    · exact absurd taken goOn_done
  · cases taken
  · exact absurd taken goOn_done
  · exact absurd taken goOn_done
  · exact absurd taken goOn_done
  · exact absurd taken goOn_done
  · exact absurd taken goOn_done
  · split at taken
    · cases taken
    · split at taken
      · cases taken
      · split at taken
        · cases taken
        · exact absurd taken goOn_done

-- The tokens from a text on, with fuel for all of it.
theorem lex_step (lexed : lexOne s = some (token,rest)) (shorter : rest.length < s.length) (enough : s.length ≤ fuel) :
    ∃ fuel', rest.length ≤ fuel' ∧ lex fuel s = token.toList ++ lex fuel' rest := by
  cases fuel with
  | zero => omega
  | succ fuel => exact ⟨fuel,by omega,by simp [lex,lexed]⟩

theorem lex_over (lexed : lexOne s = none) (fuel : Nat) : lex fuel s = [] := by
  cases fuel with
  | zero => rfl
  | succ fuel => simp [lex,lexed]

-- The tree of a file is what its tokens make of the first block.
theorem parsed_tokens (parsed : fileToTconfig h contents (.tree later)) :
    ∃ block, (tokens contents).foldlM applyToken (tconfigBlockNew h,h.length) = some (later,block) := by
  have shows := ends_keeps
    (fun st => ∃ passed fuel, st.eip.length ≤ fuel ∧ tokens contents = passed ++ lex fuel st.eip ∧
      passed.foldlM applyToken (tconfigBlockNew h,h.length) = some (st.heap,st.block))
    (fun result => ∀ heap, result = .tree heap →
      ∃ block, (tokens contents).foldlM applyToken (tconfigBlockNew h,h.length) = some (heap,block)) ?_ ?_ ?_ parsed
  · exact shows later rfl
  · rintro st next ⟨passed,fuel,enough,whole,applied⟩ taken
    obtain ⟨token,takes⟩ := step_reads taken
    obtain ⟨fuel',enough',split⟩ := lex_step takes.lexed takes.shorter enough
    refine ⟨passed ++ token.toList,fuel',enough',by rw [whole,split,List.append_assoc],?_⟩
    rw [List.foldlM_append,applied]
    exact takes.applied
  · rintro st result ⟨passed,fuel,-,whole,applied⟩ taken heap rfl
    rw [lex_over (step_ends taken),List.append_nil] at whole
    rw [whole,applied,step_done taken]
    exact ⟨_,rfl⟩
  · exact ⟨[],_,Nat.le_refl _,rfl,rfl⟩

-- A text without a line break.
def OneLine (s : Str) : Prop := ∀ c ∈ s, c ≠ '\r' ∧ c ≠ '\n'

theorem lexOne_token (lexed : lexOne s = some (some (.entry key value),rest)) : ∃ rest', lexEntry s = some (.entry key value,rest') := by
  unfold lexOne at lexed
  split at lexed
  · cases lexed
  · cases lexed
  · cases lexed
  · split at lexed
    · cases lexed
    · cases lexed
  · obtain ⟨read,-,same⟩ := Option.map_eq_some_iff.mp lexed
    cases same
  · cases lexed
  · cases lexed
  · cases lexed
  · cases lexed
  · cases lexed
  · cases lexed
  · obtain ⟨⟨token,rest'⟩,read,same⟩ := Option.map_eq_some_iff.mp lexed
    cases same
    exact ⟨rest',read⟩

theorem quotedKey_line (read : readKey line ('"' :: s) = .ok (key,rest)) : OneLine key := by
  cases scanned : scanQuoted line s with
  | error reason => simp [readKey,scanned,bind,Except.bind] at read
  | ok result =>
      simp only [readKey,scanned,bind,Except.bind] at read
      cases read
      have clean := (scanQuoted_parts scanned).2.2
      exact fun c member => ⟨(clean c member).2.1,(clean c member).1⟩

-- Only a key without quotes can go over the end of a line.
theorem lexEntry_lines (lexed : lexEntry s = some (.entry key value,rest)) :
    (key.bare = false → OneLine key.text) ∧ OneLine value.text := by
  unfold lexEntry at lexed
  split at lexed
  · cases lexed
  · rename_i found rest1 readK
    split at lexed
    · cases lexed
    · rename_i second skipped
      split at lexed
      · cases lexed
      · rename_i value' rest3 readV
        cases lexed
        obtain ⟨-,d,tail,starts,blankless,carriage,feed⟩ := skipBlanks_parts skipped
        refine ⟨?_,fun c member => ((readValue_parts readV starts blankless carriage feed).2.1 c member).2⟩
        intro written
        simp only [startsBare,bne_eq_false_iff_eq] at written
        obtain ⟨tail',rfl⟩ := List.head?_eq_some_iff.mp written
        exact quotedKey_line readK

theorem tokens_lexed (member : token ∈ lex fuel s) : ∃ s rest, lexOne s = some (some token,rest) := by
  induction fuel generalizing s with
  | zero => cases member
  | succ fuel ih =>
      rw [lex] at member
      split at member
      · cases member
      · rename_i token' rest lexed
        rcases List.mem_append.mp member with here | later
        · obtain rfl : token' = some token := by simpa using here
          exact ⟨s,rest,lexed⟩
        · exact ih later

theorem entry_lines (member : .entry key value ∈ tokens contents) : (key.bare = false → OneLine key.text) ∧ OneLine value.text := by
  obtain ⟨s,rest,lexed⟩ := tokens_lexed member
  obtain ⟨rest',read⟩ := lexOne_token lexed
  exact lexEntry_lines read

end Trollbot.Tconfig
