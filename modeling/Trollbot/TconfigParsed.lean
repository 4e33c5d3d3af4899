import Trollbot.TconfigRoundTrip

-- What can be in a tree that comes from a file.
namespace Trollbot.Tconfig
open CBuffer Linked Machine

-- The text between two quotes of the file, on one line.
def Quoted (contents found : Str) : Prop :=
  ∃ before after, contents = before ++ '"' :: (found ++ '"' :: after) ∧ ∀ c ∈ found, c ≠ '\n' ∧ c ≠ '"'

def FromFile (contents : Str) (e : Entry) : Prop :=
  ∃ key value, e = ⟨some key,some value⟩ ∧
    (Quoted contents key ∨ ∃ c tail, key = c :: tail ∧ c ≠ '{' ∧ c ≠ '}' ∧ c ≠ '/') ∧ (value = [] ∨ Legible value)

theorem scanTo_parts (stops : Char → Bool) (s : Str) :
    s = (scanTo stops s).1 ++ (scanTo stops s).2 ∧ ∀ c ∈ (scanTo stops s).1, stops c = false := by
  refine ⟨List.takeWhile_append_dropWhile.symm,?_⟩
  intro c member
  simpa using List.mem_takeWhile_imp member

theorem scanQuoted_parts (read : scanQuoted line s = .ok (found,rest)) :
    s = found ++ rest ∧ (∃ tail, rest = '"' :: tail) ∧ ∀ c ∈ found, c ≠ '\n' ∧ c ≠ '\r' ∧ c ≠ '"' := by
  unfold scanQuoted at read
  have parts := scanTo_parts (fun c => c == '\n' || c == '\r' || c == '"') s
  split at read
  · rename_i _ tail scanned
    cases read
    rw [scanned] at parts
    refine ⟨parts.1,⟨tail,rfl⟩,?_⟩
    intro c member
    simpa [and_assoc] using parts.2 c member
  · cases read

theorem scanPlain_parts (read : scanPlain stops line s = .ok (found,rest)) :
    s = found ++ rest ∧ (∀ c ∈ found, stops c = false) ∧ ∃ c ∈ rest.head?, stops c = true := by
  have parts := scanTo_parts stops s
  have halts := List.head?_dropWhile_not (fun c => !stops c) s
  have shown : s.dropWhile (fun c => !stops c) = (scanTo stops s).2 := rfl
  rw [shown] at halts
  unfold scanPlain at read
  generalize scanTo stops s = scanned at parts halts read
  obtain ⟨first,last⟩ := scanned
  cases last with
  | nil => cases read
  | cons c tail =>
      cases read
      exact ⟨parts.1,parts.2,c,rfl,by simpa using halts⟩

theorem readKey_parts (read : readKey line s = .ok (key,rest)) :
    (∃ tail, s = '"' :: (key ++ '"' :: tail) ∧ rest = tail ∧ ∀ c ∈ key, c ≠ '\n' ∧ c ≠ '"') ∨
      s = key ++ rest ∧ (∀ c ∈ key, isBlank c = false) ∧ ∃ c ∈ rest.head?, isBlank c = true := by
  unfold readKey at read
  split at read
  · rename_i s
    cases scanned : scanQuoted line s with
    | error reason => simp [scanned,bind,Except.bind] at read
    | ok result =>
        obtain ⟨found,rest'⟩ := result
        simp only [scanned,bind,Except.bind] at read
        cases read
        obtain ⟨parts,⟨tail,same⟩,clean⟩ := scanQuoted_parts scanned
        refine .inl ⟨tail,by rw [parts,same],by rw [same]; rfl,?_⟩
        intro c member
        exact ⟨(clean c member).1,(clean c member).2.2⟩
  · exact .inr (scanPlain_parts read)

theorem readKey_suffix (read : readKey line s = .ok (key,rest)) : rest <:+ s := by
  rcases readKey_parts read with ⟨tail,parts,same,-⟩ | ⟨parts,-,-⟩
  · rw [parts,same]
    exact ⟨'"' :: (key ++ ['"']),by simp⟩
  · exact ⟨key,parts.symm⟩

theorem skipBlanks_parts (read : skipBlanks key line s = .ok rest) :
    rest <:+ s ∧ ∃ c tail, rest = c :: tail ∧ isBlank c = false ∧ c ≠ '\r' ∧ c ≠ '\n' := by
  induction s with
  | nil => cases read
  | cons c s ih =>
      unfold skipBlanks at read
      split at read
      · cases read
      · rename_i ends
        split at read
        · obtain ⟨suffix,more⟩ := ih read
          exact ⟨suffix.trans (List.suffix_cons _ _),more⟩
        · rename_i blankless
          cases read
          rw [not_or] at ends
          exact ⟨List.suffix_refl _,c,s,rfl,by simpa using blankless,ends.1,ends.2⟩

theorem readValue_parts (read : readValue line s = .ok (value,rest)) (starts : s = c :: tail) (blankless : isBlank c = false)
    (carriage : c ≠ '\r') (feed : c ≠ '\n') :
    rest <:+ s ∧ (∀ c ∈ value, c ∈ s ∧ c ≠ '\r' ∧ c ≠ '\n') ∧
      ((∀ c ∈ value, c ≠ '"') ∨ value.head? = some c ∧ c ≠ '"' ∧ ∀ c ∈ value, isBlank c = false) := by
  unfold readValue at read
  split at read
  · rename_i s
    obtain ⟨parts,-,clean⟩ := scanQuoted_parts read
    refine ⟨?_,?_,.inl fun c member => (clean c member).2.2⟩
    · rw [parts]
      exact ((List.suffix_append _ _)).trans (List.suffix_cons _ _)
    · intro c member
      refine ⟨?_,(clean c member).2.1,(clean c member).1⟩
      rw [parts]
      simp [member]
  · rename_i notQuote
    obtain ⟨parts,clean,last,here,halts⟩ := scanPlain_parts read
    have quote : c ≠ '"' := by
      rintro rfl
      exact notQuote tail starts
    refine ⟨⟨value,parts.symm⟩,?_,.inr ⟨?_,quote,?_⟩⟩
    · intro c member
      have goes := clean c member
      simp only [Bool.or_eq_false_iff,beq_eq_false_iff_ne] at goes
      exact ⟨by rw [parts]; simp [member],goes.1.2,goes.2⟩
    · cases value with
      | nil =>
          have same : rest = c :: tail := parts.symm.trans starts
          subst same
          obtain rfl : c = last := by simpa using here
          simp [blankless,carriage,feed] at halts
      | cons d more =>
          rw [starts] at parts
          rw [(List.cons.inj parts).1]
          rfl
    · intro c member
      have goes := clean c member
      simp only [Bool.or_eq_false_iff] at goes
      exact goes.1.1

theorem readEntry_reads (read : readEntry blockKey line s = .ok (key,value,rest)) : ∃ behind blankless,
    readKey line s = .ok (key,behind) ∧ skipBlanks blockKey line behind = .ok blankless ∧ readValue line blankless = .ok (value,rest) := by
  unfold readEntry at read
  cases readK : readKey line s with
  | error reason => simp [readK,bind,Except.bind] at read
  | ok result =>
      obtain ⟨key',behind⟩ := result
      cases skipped : skipBlanks blockKey line behind with
      | error reason => simp [readK,skipped,bind,Except.bind] at read
      | ok blankless =>
          cases readV : readValue line blankless with
          | error reason => simp [readK,skipped,readV,bind,Except.bind] at read
          | ok result =>
              simp only [readK,skipped,readV,bind,Except.bind] at read
              cases read
              exact ⟨behind,blankless,rfl,skipped,readV⟩

theorem readEntry_parts (clean : ∀ c ∈ contents, c ≠ nul) (inside : s <:+ contents) (starts : s = c :: tail)
    (special : c ≠ '{' ∧ c ≠ '}' ∧ c ≠ '/') (blankless : isBlank c = false)
    (read : readEntry blockKey line s = .ok (key,value,rest)) : rest <:+ contents ∧ FromFile contents ⟨some key,some value⟩ := by
  obtain ⟨rest1,rest2,readK,skipped,readV⟩ := readEntry_reads read
  obtain ⟨suffix2,d,tail2,starts2,blankless2,carriage,feed⟩ := skipBlanks_parts skipped
  obtain ⟨suffix3,form,quotes⟩ := readValue_parts readV starts2 blankless2 carriage feed
  have inside2 : rest2 <:+ contents := suffix2.trans ((readKey_suffix readK).trans inside)
  refine ⟨suffix3.trans inside2,key,value,rfl,?_,?_⟩
  · rcases readKey_parts readK with ⟨tail1,parts,-,quoteless⟩ | ⟨parts,blanks,last,here,halts⟩
    · obtain ⟨before,whole⟩ := inside
      exact .inl ⟨before,tail1,by rw [← whole,parts],quoteless⟩
    · cases key with
      | nil =>
          have same : rest1 = c :: tail := by simpa using parts.symm.trans starts
          subst same
          obtain rfl : c = last := by simpa using here
          rw [blankless] at halts
          cases halts
      | cons d more =>
          rw [starts] at parts
          obtain rfl := (List.cons.inj parts).1
          exact .inr ⟨c,more,rfl,special⟩
  · cases value with
    | nil => exact .inl rfl
    | cons e more =>
        refine .inr ⟨by simp,?_,?_⟩
        · intro x member
          obtain ⟨there,carriage,feed⟩ := form x member
          exact ⟨clean x (inside2.subset there),carriage,feed⟩
        · intro quote
          rcases quotes with quoteless | ⟨first,notQuote,blanks⟩
          · exact absurd rfl (quoteless _ quote)
          · refine ⟨?_,blanks⟩
            rw [first]
            simpa using notQuote

structure Sound (contents : Str) (st : ParseState) : Prop where
  eip : st.eip <:+ contents
  labels : Labels st.heap (fun e => e = .blank ∨ FromFile contents e)

theorem sound_goOn (eip : rest <:+ contents) (labels : Labels heap (fun e => e = .blank ∨ FromFile contents e))
    (taken : goOn heap block line rest = .next later) : Sound contents later := by
  cases rest with
  | nil => cases taken
  | cons c s =>
      cases taken
      exact ⟨(List.suffix_cons c s).trans eip,labels⟩

theorem openBrace_labels (labels : Labels h (fun e => e = .blank ∨ FromFile contents e)) (opened : openBrace h block = some (later,child)) :
    Labels later (fun e => e = .blank ∨ FromFile contents e) := by
  obtain ⟨n,live,opened⟩ := Option.bind_eq_some_iff.mp opened
  cases below : n.child with
  | some child =>
      rw [below] at opened
      cases opened
      exact labels
  | none =>
      rw [below] at opened
      cases opened
      exact labels_store (labels_alloc labels (.inl rfl)) block (labels block n live)

theorem insertEntry_labels (labels : Labels h (fun e => e = .blank ∨ FromFile contents e)) (new : FromFile contents ⟨some key,some value⟩)
    (inserted : insertEntry h block key value = some (later,q)) : Labels later (fun e => e = .blank ∨ FromFile contents e) := by
  obtain ⟨first,-,inserted⟩ := Option.bind_eq_some_iff.mp inserted
  obtain ⟨⟨found,passed⟩,-,inserted⟩ := Option.bind_eq_some_iff.mp inserted
  cases found with
  | some search =>
      cases inserted
      exact labels
  | none =>
      obtain ⟨last,-,inserted⟩ := Option.bind_eq_some_iff.mp inserted
      obtain ⟨n,live,inserted⟩ := Option.bind_eq_some_iff.mp inserted
      split at inserted
      · cases inserted
        refine labels_store labels _ ?_
        exact .inr new
      · cases inserted
        refine labels_store (labels_alloc labels ?_) _ ?_
        · exact .inr new
        · exact labels last n live

theorem blockComment_suffix (read : blockComment s line = .ok (rest,line')) : rest <:+ s := by
  fun_induction blockComment s line with
  | case1 line =>
      cases read
      exact List.suffix_refl _
  | case2 line c => cases read
  | case3 line c d s stops =>
      cases read
      exact List.suffix_cons _ _
  | case4 line c d s _ _ ih => exact (ih read).trans ((List.suffix_cons _ _).trans (List.suffix_cons _ _))
  | case5 line c d s _ _ _ ih => exact (ih read).trans (List.suffix_cons _ _)
  | case6 line c d s _ _ _ ih => exact (ih read).trans (List.suffix_cons _ _)

theorem lineComment_suffix (read : lineComment s line = some (rest,line')) : rest <:+ s := by
  induction s generalizing line with
  | nil => cases read
  | cons c s ih =>
      unfold lineComment at read
      split at read
      · cases s with
        | nil => cases read
        | cons d t =>
            simp only at read
            split at read
            · cases read
              exact List.suffix_refl _
            · cases read
              exact List.suffix_cons _ _
      · split at read
        · cases read
          exact List.suffix_refl _
        · exact (ih read).trans (List.suffix_cons _ _)

theorem step_sound (clean : ∀ c ∈ contents, c ≠ nul) (sound : Sound contents st) (taken : parseStep st = .next later) : Sound contents later := by
  obtain ⟨eip,labels⟩ := sound
  unfold parseStep at taken
  split at taken
  · cases taken
  · split at taken
    · cases taken
    · rename_i s ends _ heap block opened
      exact sound_goOn (by rw [← ends]; exact eip) (openBrace_labels labels opened) taken
  · split at taken
    · cases taken
    · cases taken
    · rename_i s ends _ parent closed
      exact sound_goOn (by rw [← ends]; exact eip) labels taken
  · split at taken
    · cases taken
    · rename_i s ends _ rest line read
      have inside : s <:+ contents := by
        rw [ends] at eip
        exact (List.suffix_cons _ _).trans ((List.suffix_cons _ _).trans eip)
      exact sound_goOn ((blockComment_suffix read).trans inside) labels taken
  · split at taken
    · cases taken
    · rename_i s ends _ rest line read
      have inside : s <:+ contents := by
        rw [ends] at eip
        exact (List.suffix_cons _ _).trans ((List.suffix_cons _ _).trans eip)
      exact sound_goOn ((lineComment_suffix read).trans inside) labels taken
  · cases taken
  · rename_i s ends
    rw [ends] at eip
    exact sound_goOn ((List.suffix_cons _ _).trans eip) labels taken
  · rename_i s _ ends
    rw [ends] at eip
    exact sound_goOn eip labels taken
  · rename_i s ends
    rw [ends] at eip
    exact sound_goOn eip labels taken
  · rename_i s ends
    rw [ends] at eip
    exact sound_goOn eip labels taken
  · rename_i s ends
    rw [ends] at eip
    exact sound_goOn eip labels taken
  · rename_i notNil notOpen notClose _ _ notSlash _ notReturn notFeed notTab notSpace
    split at taken
    · cases taken
    · split at taken
      · cases taken
      · rename_i key value rest read
        split at taken
        · cases taken
        · rename_i heap block inserted
          cases starts : st.eip with
          | nil => exact absurd starts notNil
          | cons c tail =>
              have special : c ≠ '{' ∧ c ≠ '}' ∧ c ≠ '/' :=
                ⟨fun same => notOpen tail (same ▸ starts),fun same => notClose tail (same ▸ starts),
                  fun same => notSlash tail (same ▸ starts)⟩
              have blankless : isBlank c = false := by
                have space : c ≠ ' ' := fun same => notSpace tail (same ▸ starts)
                have tab : c ≠ '\t' := fun same => notTab tail (same ▸ starts)
                simp [isBlank,space,tab]
              obtain ⟨inside,form⟩ := readEntry_parts clean eip starts special blankless read
              exact sound_goOn inside (insertEntry_labels labels form inserted) taken

theorem goOn_done : goOn heap block line rest ≠ .done result := by
  cases rest with
  | nil => exact nofun
  | cons c s => exact nofun

-- The parser ends with the tree that it has.
theorem step_done (taken : parseStep st = .done (.tree heap)) : heap = st.heap := by
  unfold parseStep at taken
  split at taken
  · cases taken
    rfl
  · split at taken
    · cases taken
    · exact absurd taken goOn_done
  · split at taken
    · cases taken
    · cases taken
    · exact absurd taken goOn_done
  · split at taken
    · cases taken
    · exact absurd taken goOn_done
  · split at taken
    · cases taken
      rfl
    · exact absurd taken goOn_done
  · cases taken
  · exact absurd taken goOn_done
  · exact absurd taken goOn_done
  · exact absurd taken goOn_done
  · exact absurd taken goOn_done
  · exact absurd taken goOn_done
  · split at taken
    · cases taken
    · split at taken
      · cases taken
      · split at taken
        · cases taken
        · exact absurd taken goOn_done

-- Every entry of a tree that comes from a file.
theorem parsed_labels (parsed : fileToTconfig [] contents (.tree later)) (rep : Rep later none none none b) :
    ∀ e ∈ (bare b).labels, e = .blank ∨ FromFile (contents.takeWhile (fun c => c != nul)) e := by
  have clean : ∀ c ∈ contents.takeWhile (fun c => c != nul), c ≠ nul := by
    intro c member
    simpa using List.mem_takeWhile_imp member
  have shows := ends_keeps (Sound (contents.takeWhile (fun c => c != nul)))
    (fun result => ∀ heap, result = .tree heap →
      Labels heap (fun e => e = .blank ∨ FromFile (contents.takeWhile (fun c => c != nul)) e))
    (fun st later => step_sound clean) ?_ ?_ parsed
  · exact rep_labels (shows later rfl) rep
  · intro st result sound taken heap same
    subst same
    rw [step_done taken]
    exact sound.labels
  · refine ⟨List.suffix_refl _,?_⟩
    exact labels_alloc (by intro p n live; simp [cell] at live) (.inl rfl)

-- tconfig_to_file with the file's contents before and after, if there is one. Without a block nothing
-- is written.
def tconfigSave (f : Forest Entry) (file after : Option Str) : Prop :=
  match head (Linked.place 0 f) with
  | none => after = file
  | some tcfg => ∃ contents, tconfigToFile (plant f) tcfg contents ∧ after = some contents

-- The blocks that file_to_tconfig returns, in a heap of their own; none for a missing file.
def fileBlocks (file : Option Str) (blocks : List (Entry × Forest Entry)) : Prop :=
  match file with
  | none => blocks = []
  | some contents => ∃ (later : Heap Entry) (b : Placed Entry), fileToTconfig [] contents (.tree later) ∧
      Rep later none none none b ∧ head b = some 0 ∧ blocks = (bare b).blocks

theorem save_nil (file after : Option Str) : tconfigSave .nil file after ↔ after = file := Iff.rfl

theorem head_place (n : Nat) {f : Forest Entry} (some' : f ≠ .nil) : head (Linked.place n f) = some n := by
  cases f with
  | nil => exact absurd rfl some'
  | cons label children rest => rfl

theorem save_text {f : Forest Entry} (filled : ∀ e ∈ f.labels, Filled e) (some' : f ≠ .nil) (file after : Option Str) :
    tconfigSave f file after ↔ after = some (text 0 f) := by
  have first := head_place 0 some'
  have written := write_all (rep_plant f) (separate_place 0 f) (by simpa using filled) first
  rw [bare_place] at written
  unfold tconfigSave
  rw [first]
  constructor
  · rintro ⟨contents,written',rfl⟩
    rw [ends_same written written']
  · rintro rfl
    exact ⟨_,written,rfl⟩

theorem save_blank {f : Forest Entry} (unfilled : ∃ e ∈ f.labels, ¬Filled e) (file after : Option Str) : ¬tconfigSave f file after := by
  have some' : f ≠ .nil := by
    rintro rfl
    obtain ⟨e,member,-⟩ := unfilled
    cases member
  unfold tconfigSave
  rw [head_place 0 some']
  rintro ⟨contents,written,-⟩
  exact write_blank (separate_place 0 f) (rep_plant f) (head_place 0 some') (by simpa using unfilled) written

theorem fileBlocks_same (first : fileBlocks file blocks) (second : fileBlocks file blocks') : blocks' = blocks := by
  cases file with
  | none => exact Eq.trans second (Eq.symm first)
  | some contents =>
      obtain ⟨later,b,parsed,rep,headed,rfl⟩ := first
      obtain ⟨later',b',parsed',rep',headed',rfl⟩ := second
      have same : Parsed.tree later' = Parsed.tree later := ends_same parsed parsed'
      cases same
      rw [rep_same rep rep' (headed'.trans headed.symm)]

theorem fileBlocks_text {f : Forest Entry} (carried : Carried f) (some' : f ≠ .nil) : fileBlocks (some (text 0 f)) f.blocks := by
  obtain ⟨later,b,parsed,rep,-,headed,content⟩ := read_all carried some' []
  exact ⟨later,b,parsed,rep,headed,by rw [content]⟩

theorem fileBlocks_labels (read : fileBlocks (some contents) blocks) (member : block ∈ blocks) :
    ∀ e ∈ block.1 :: block.2.labels, e = .blank ∨ FromFile (contents.takeWhile (fun c => c != nul)) e := by
  obtain ⟨later,b,parsed,rep,-,rfl⟩ := read
  have labels := parsed_labels parsed rep
  intro e inside
  refine labels e ?_
  rcases List.mem_cons.mp inside with rfl | below
  · exact Forest.row_labels (by rw [← Forest.map_blocks]; exact List.mem_map_of_mem member)
  · exact Forest.blocks_labels member below

-- A level without children.
def leaves (entries : List Entry) : Forest Entry := entries.foldr (fun e rest => .cons e .nil rest) .nil

@[simp] theorem leaves_row (entries : List Entry) : (leaves entries).row = entries := by
  induction entries with
  | nil => rfl
  | cons e rest ih => simpa [leaves,Forest.row] using ih

@[simp] theorem leaves_labels (entries : List Entry) : (leaves entries).labels = entries := by
  induction entries with
  | nil => rfl
  | cons e rest ih => simpa [leaves,Forest.labels] using ih

theorem leaves_carried (carried : ∀ e ∈ entries, e.Carried) (once : entries.Nodup) : Carried (leaves entries) := by
  induction entries with
  | nil => trivial
  | cons e rest ih =>
      obtain ⟨apart,once⟩ := List.nodup_cons.mp once
      refine ⟨carried e (by simp),?_,trivial,ih (fun other member => carried other (by simp [member])) once⟩
      rw [show (rest.foldr (fun e rest => Forest.cons e .nil rest) .nil).row = rest from leaves_row rest]
      exact apart

theorem plain_word (some' : key ≠ []) (clean : ∀ c ∈ key, (c ≠ CBuffer.nul ∧ c ≠ '\r' ∧ c ≠ '\n' ∧ c ≠ '"') ∧ c ≠ '{' ∧ c ≠ '}' ∧ c ≠ '/') :
    PlainKey key :=
  ⟨⟨some',fun c member => (clean c member).1⟩,fun _ _ c member => (clean c (List.mem_of_mem_head? member)).2⟩

-- A line is read with a note of the last quote, and of a blank since; two quotes with no blank between
-- them on a line do not go through.
def quoteStep (quote : Option Bool) (c : Char) : Option (Option Bool) :=
  if c = '\n' then some none
  else if c = '"' then (if quote = some false then none else some (some false))
  else some (quote.map (fun blank => blank || isBlank c))

theorem quoteless_outside {s : Str} (clean : ∀ c ∈ s, c ≠ '\n' ∧ c ≠ '"') : s.foldlM quoteStep none = some none := by
  induction s with
  | nil => rfl
  | cons c s ih =>
      have first : quoteStep none c = some none := by simp [quoteStep,clean c (by simp)]
      have later := ih fun d member => clean d (by simp [member])
      simp only [List.foldlM_cons,first,Option.bind_eq_bind,Option.bind_some,later]

theorem quoteless_inside {s : Str} (clean : ∀ c ∈ s, c ≠ '\n' ∧ c ≠ '"') (blank : Bool) :
    s.foldlM quoteStep (some blank) = some (some (blank || s.any isBlank)) := by
  induction s generalizing blank with
  | nil => simp
  | cons c s ih =>
      have first : quoteStep (some blank) c = some (some (blank || isBlank c)) := by simp [quoteStep,clean c (by simp)]
      have later := ih (fun d member => clean d (by simp [member])) (blank || isBlank c)
      simp only [List.foldlM_cons,first,Option.bind_eq_bind,Option.bind_some,later,List.any_cons,Bool.or_assoc]

-- Where the text goes through, what is between two quotes has a blank.
theorem quotes_apart {contents : Str} (goes : contents.foldlM quoteStep quote = some later) (between : Quoted contents found) : ∃ c ∈ found, isBlank c = true := by
  obtain ⟨before,after,rfl,clean⟩ := between
  rw [List.foldlM_append] at goes
  obtain ⟨first,-,goes⟩ := Option.bind_eq_some_iff.mp goes
  rw [List.foldlM_cons] at goes
  obtain ⟨second,opened,goes⟩ := Option.bind_eq_some_iff.mp goes
  have opened : second = some false := by
    unfold quoteStep at opened
    rw [if_neg (by decide),if_pos rfl] at opened
    split at opened
    · cases opened
    · cases opened
      rfl
  rw [opened,List.foldlM_append,quoteless_inside clean] at goes
  simp only [Option.bind_eq_bind,Option.bind_some,Bool.false_or,List.foldlM_cons] at goes
  obtain ⟨last,closed,-⟩ := Option.bind_eq_some_iff.mp goes
  cases blank : found.any isBlank with
  | false =>
      rw [blank] at closed
      cases closed
  | true =>
      obtain ⟨c,member,blank⟩ := List.any_eq_true.mp blank
      exact ⟨c,member,blank⟩

theorem quoted_goes (plain : Plain s) (quote : Option Bool) (ready : quote ≠ some false) :
    ∃ later, (quoted s).foldlM quoteStep quote = some later := by
  have clean : ∀ c ∈ s, c ≠ '\n' ∧ c ≠ '"' := fun c member => ⟨(plain.2 c member).2.2.1,(plain.2 c member).2.2.2⟩
  unfold quoted
  split
  · rename_i blank
    have opened : quoteStep quote '"' = some (some false) := by
      unfold quoteStep
      rw [if_neg (by decide),if_pos rfl,if_neg ready]
    have some' : s.any isBlank = true := by
      rcases blank with space | tab
      · exact List.any_eq_true.mpr ⟨_,space,rfl⟩
      · exact List.any_eq_true.mpr ⟨_,tab,rfl⟩
    have closed : quoteStep (some true) '"' = some (some false) := by rfl
    refine ⟨some false,?_⟩
    simp [opened,quoteless_inside clean,some',closed]
  · cases quote with
    | none => exact ⟨_,quoteless_outside clean⟩
    | some blank => exact ⟨_,quoteless_inside clean blank⟩

theorem line_goes (plainKey : Plain key) (plain : Plain value) (depth : Nat) : (lineText depth key value).foldlM quoteStep none = some none := by
  have margin : (indent depth).foldlM quoteStep none = some none := by
    refine quoteless_outside ?_
    intro c member
    rw [List.eq_of_mem_replicate member]
    decide
  obtain ⟨middle,first⟩ := quoted_goes plainKey none (by simp)
  have tab : ∃ ready, quoteStep middle '\t' = some ready ∧ ready ≠ some false := by
    cases middle with
    | none => exact ⟨none,rfl,by simp⟩
    | some blank => exact ⟨some true,by cases blank <;> rfl,by simp⟩
  obtain ⟨ready,tab,able⟩ := tab
  obtain ⟨last,second⟩ := quoted_goes plain ready able
  have ends : quoteStep last '\n' = some none := rfl
  simp [lineText,margin,first,tab,second,ends]

theorem text_goes {b : Forest Entry} (plain : ∀ e ∈ b.labels, ∃ key value, e = ⟨some key,some value⟩ ∧ Plain key ∧ Plain value)
    (depth : Nat) : (text depth b).foldlM quoteStep none = some none := by
  have margin : ∀ depth, (indent depth).foldlM quoteStep none = some none := by
    intro depth
    refine quoteless_outside ?_
    intro c member
    rw [List.eq_of_mem_replicate member]
    decide
  have line : ∀ e ∈ b.labels, ∀ depth, (entryText depth e).foldlM quoteStep none = some none := by
    intro e member depth
    obtain ⟨key,value,rfl,plainKey,plain⟩ := plain e member
    exact line_goes plainKey plain depth
  induction b generalizing depth with
  | nil => rfl
  | cons e children rest ihChildren ihRest =>
      have first := line e (by simp [Forest.labels]) depth
      have below := ihChildren (fun e inside => plain e (Forest.labels_below inside)) (depth + 1) (fun e inside => line e (Forest.labels_below inside))
      have after := ihRest (fun e inside => plain e (Forest.labels_after inside)) depth (fun e inside => line e (Forest.labels_after inside))
      have feed : ∀ quote, quoteStep quote '\n' = some none := fun _ => rfl
      have brace : quoteStep none '{' = some none ∧ quoteStep none '}' = some none := ⟨rfl,rfl⟩
      cases children with
      | nil => simp [text,first,after]
      | cons child inner others => simp [text,first,below,after,margin,feed,brace]

-- An empty value ends the program, where everything before it gets through.
theorem empty_exits {x : Forest Entry} (carried : Carried x) (plainKey : PlainKey key) (feed : Bool) (tail : Str) :
    ¬fileBlocks (some (text 0 x ++ ((if feed then ['\n'] else []) ++ (lineText 0 key [] ++ tail)))) blocks := by
  rintro ⟨later,b,parsed,-⟩
  have clean : ∀ c ∈ text 0 x, (c != nul) = true := by
    intro c member
    simpa using text_clean carried 0 c member
  obtain ⟨h,new,block,line,walked,reads⟩ := parse_level carried (start_level []) (.inl ⟨_,rfl⟩) 0 1
    ((if feed then ['\n'] else []) ++ (lineText 0 key [] ++ tail.takeWhile (fun c => c != nul)))
  obtain ⟨n,live⟩ : ∃ n, cell h block = some n := by
    obtain ⟨front,label,below,back,rfl⟩ := siblings_split reads.member
    exact ⟨_,(rep_node reads.rep).1⟩
  have shown : lineText 0 key [] ++ tail.takeWhile (fun c => c != nul) =
      quoted key ++ '\t' :: '\n' :: tail.takeWhile (fun c => c != nul) := by
    simp [lineText,indent,quoted]
  have exits : ∀ line, parseStep ⟨h,block,lineText 0 key [] ++ tail.takeWhile (fun c => c != nul),line⟩ =
      .done (.exit (.endOfLine n.label.key line)) := by
    intro line
    have skipped : skipBlanks n.label.key line ('\t' :: '\n' :: tail.takeWhile (fun c => c != nul)) =
        .error (.endOfLine n.label.key line) := by
      simp [skipBlanks,isBlank]
    rw [shown,step_entry plainKey live]
    simp only [readEntry,readKey_quoted plainKey.1,skipped,bind,Except.bind]
  have ends : ∃ reason, Ends parseStep ⟨h,block,(if feed then ['\n'] else []) ++
      (lineText 0 key [] ++ tail.takeWhile (fun c => c != nul)),line⟩ (.exit reason) := by
    cases feed with
    | false => exact ⟨_,ends_now (exits line)⟩
    | true => exact ⟨_,ends_later rfl (ends_now (exits (line + 1)))⟩
  obtain ⟨reason,ends⟩ := ends
  have kept : ∀ c ∈ (if feed then ['\n'] else []) ++ lineText 0 key [], (c != nul) = true := by
    have keyClean : nul ∉ quoted key := quoted_clean plainKey.1.legible
    have others : nul ≠ '\t' ∧ nul ≠ '\n' ∧ nul ≠ ' ' := by decide
    suffices clean : nul ∉ (if feed then ['\n'] else []) ++ lineText 0 key [] by
      intro c member
      rw [bne_iff_ne]
      rintro rfl
      exact clean member
    have feedClean : nul ∉ (if feed then ['\n'] else []) := by cases feed <;> simp [others]
    simp [lineText,indent,quoted,feedClean,others] at keyClean ⊢
    exact keyClean
  have whole : (text 0 x ++ ((if feed then ['\n'] else []) ++ (lineText 0 key [] ++ tail))).takeWhile (fun c => c != nul) =
      text 0 x ++ ((if feed then ['\n'] else []) ++ (lineText 0 key [] ++ tail.takeWhile (fun c => c != nul))) := by
    rw [List.takeWhile_append_of_pos clean,← List.append_assoc _ (lineText 0 key []) tail,List.takeWhile_append_of_pos kept,List.append_assoc]
  unfold fileToTconfig parseStart at parsed
  rw [whole] at parsed
  cases ends_same (walked.ends ends) parsed

end Trollbot.Tconfig
