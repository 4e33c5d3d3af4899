import Trollbot.TconfigOutline

-- How a configuration file is spelled, item by item, and what the parser does with each.
namespace Trollbot.Tconfig
open CBuffer Linked Machine

def isSpace (c : Char) : Bool := isBlank c || c == '\r' || c == '\n'

-- Text that is not the end of a comment anywhere.
def Closeless (s : Str) : Prop := ¬['*','/'] <:+: s

-- A comment that is not closed before the end, where its scan passes over the end: nothing after its
-- opening, or a carriage return and line feed at its end.
def LeftOpen (note : Str) : Prop := Closeless note ∧ (note = [] ∨ ['\r','\n'] <:+ note)

-- A key with what stands between it and its value.
inductive KeyPart : Word → Str → Prop where
  | quoted : (∀ c ∈ key, c ≠ '\r' ∧ c ≠ '\n' ∧ c ≠ '"') → (∀ c ∈ gap, isBlank c = true) → KeyPart ⟨key,false⟩ ('"' :: (key ++ '"' :: gap))
  | bare : c ∉ ['{','}','/','"','\r','\n'] → (∀ d ∈ c :: key, isBlank d = false) → (∀ d ∈ gap, isBlank d = true) → gap ≠ [] →
      KeyPart ⟨c :: key,true⟩ (c :: key ++ gap)

-- A value with the character that ends it.
inductive ValuePart : Word → Str → Prop where
  | quoted : (∀ c ∈ value, c ≠ '\r' ∧ c ≠ '\n' ∧ c ≠ '"') → ValuePart ⟨value,false⟩ ('"' :: (value ++ ['"']))
  | bare : c ≠ '"' → (∀ d ∈ c :: value, isSpace d = false) → isSpace d = true → ValuePart ⟨c :: value,true⟩ (c :: value ++ [d])

-- An item and the text after it. A carriage return that ends a '//' comment without a line feed takes
-- one more character into the comment.
inductive Item : Option Token → Str → Str → Prop where
  | opened : Item (some .opened) ['{'] rest
  | closed : Item (some .closed) ['}'] rest
  | space : c ∈ [' ','\t','\n'] → Item none [c] rest
  | carriage : rest.head? ≠ some '\n' → Item none ['\r'] rest
  | carriageFeed : Item none ['\r','\n'] rest
  | block : Closeless note → Item none ('/' :: '*' :: (note ++ ['*','/'])) rest
  | line : OneLine note → Item none ('/' :: '/' :: (note ++ ['\n'])) rest
  | lineFeed : OneLine note → Item none ('/' :: '/' :: (note ++ ['\r','\n'])) rest
  | lineCarriage : OneLine note → d ≠ '\n' → Item none ('/' :: '/' :: (note ++ ['\r',d])) rest
  | entry : KeyPart key one → ValuePart value two → Item (some (.entry key value)) (one ++ two) rest

theorem heard_clean (contents : Str) : nul ∉ heard contents := by
  intro member
  have kept := List.mem_takeWhile_imp member
  simp at kept

theorem item_some (item : Item token used rest) : used ≠ [] := by
  cases item with
  | entry keyPart valuePart => cases keyPart <;> simp
  | _ => simp

theorem skipBlanks_over (blanks : ∀ c ∈ gap, isBlank c = true) (key : Option Str) (line : Nat) (s : Str) :
    skipBlanks key line (gap ++ s) = skipBlanks key line s := by
  induction gap with
  | nil => rfl
  | cons c gap ih =>
      have blank := blanks c (by simp)
      have same : c = ' ' ∨ c = '\t' := by simpa [isBlank] using blank
      have ends : ¬(c = '\r' ∨ c = '\n') := by rcases same with rfl | rfl <;> decide
      rw [List.cons_append,skipBlanks,if_neg ends,if_pos blank]
      exact ih (fun d member => blanks d (by simp [member]))

theorem skipBlanks_stops (spaceless : isSpace c = false) (key : Option Str) (line : Nat) (s : Str) :
    skipBlanks key line (c :: s) = .ok (c :: s) := by
  simp only [isSpace,Bool.or_eq_false_iff,beq_eq_false_iff_ne] at spaceless
  rw [skipBlanks,if_neg (by simp [spaceless]),if_neg (by simp [spaceless])]

theorem skipBlanks_gap (read : skipBlanks key line s = .ok rest) :
    ∃ gap c tail, s = gap ++ rest ∧ (∀ d ∈ gap, isBlank d = true) ∧ rest = c :: tail ∧ isSpace c = false := by
  induction s with
  | nil => cases read
  | cons c s ih =>
      unfold skipBlanks at read
      split at read
      · cases read
      · rename_i ends
        split at read
        · rename_i blank
          obtain ⟨gap,d,tail,rfl,blanks,starts,spaceless⟩ := ih read
          refine ⟨c :: gap,d,tail,rfl,?_,starts,spaceless⟩
          intro e member
          rcases List.mem_cons.mp member with rfl | inside
          · exact blank
          · exact blanks e inside
        · rename_i blankless
          cases read
          refine ⟨[],c,s,rfl,by simp,rfl,?_⟩
          rw [not_or] at ends
          simp [isSpace,ends,blankless]

theorem keyPart_read (part : KeyPart key one) (line : Nat) (s : Str) :
    ∃ gap, readKey line (one ++ s) = .ok (key.text,gap ++ s) ∧ ∀ c ∈ gap, isBlank c = true := by
  cases part with
  | @quoted key gap clean blanks =>
      have read := scanQuoted_read clean line (gap ++ s)
      refine ⟨gap,?_,blanks⟩
      simp only [List.cons_append,List.append_assoc]
      simp [readKey,read,bind,Except.bind]
  | @bare c key gap plain goes blanks some' =>
      obtain ⟨d,gap',rfl⟩ := List.exists_cons_of_ne_nil some'
      have read : scanPlain isBlank line (c :: key ++ d :: (gap' ++ s)) = .ok (c :: key,d :: (gap' ++ s)) :=
        scanPlain_read goes (blanks d (by simp)) line _
      refine ⟨d :: gap',?_,blanks⟩
      have quote : c ≠ '"' := fun same => plain (by simp [same])
      simp only [List.cons_append,List.append_assoc] at read ⊢
      unfold readKey
      split
      · rename_i same
        exact absurd (List.cons.inj same).1 quote
      · exact read

theorem valuePart_read (part : ValuePart value two) (line : Nat) (s : Str) :
    ∃ c tail d, two ++ s = c :: tail ∧ isSpace c = false ∧ readValue line (two ++ s) = .ok (value.text,d :: s) := by
  cases part with
  | @quoted value clean =>
      have read := scanQuoted_read clean line s
      refine ⟨'"',value ++ '"' :: s,'"',by simp,by decide,?_⟩
      simpa [readValue] using read
  | @bare c value d quote goes halts =>
      have read : scanPlain isSpace line (c :: value ++ d :: s) = .ok (c :: value,d :: s) := scanPlain_read goes halts line s
      refine ⟨c,value ++ d :: s,d,by simp,goes c (by simp),?_⟩
      simp only [List.cons_append,List.append_assoc,List.nil_append] at read ⊢
      unfold readValue
      split
      · rename_i same
        exact absurd (List.cons.inj same).1 quote
      · exact read

theorem entry_read (one' : KeyPart key one) (two' : ValuePart value two) (blockKey : Option Str) (line : Nat) (s : Str) :
    ∃ d, readEntry blockKey line (one ++ two ++ s) = .ok (key.text,value.text,d :: s) := by
  obtain ⟨gap,readK,blanks⟩ := keyPart_read one' line (two ++ s)
  obtain ⟨c,tail,d,starts,spaceless,readV⟩ := valuePart_read two' line s
  have skipped : skipBlanks blockKey line (gap ++ (two ++ s)) = .ok (two ++ s) := by
    rw [skipBlanks_over blanks,starts,skipBlanks_stops spaceless]
  refine ⟨d,?_⟩
  rw [List.append_assoc]
  simp only [readEntry,readK,skipped,readV,bind,Except.bind]

-- The reading of an entry gives back how it is spelled.
theorem key_part (read : readKey line (c :: s) = .ok (key,rest)) (plain : c ∉ ['{','}','/','\r','\n']) (blankless : isBlank c = false)
    (blanks : ∀ d ∈ gap, isBlank d = true) (after : rest = gap ++ more) (halts : ∀ d ∈ more.head?, isBlank d = false) :
    ∃ bare one, KeyPart ⟨key,bare⟩ one ∧ c :: s = one ++ more := by
  unfold readKey at read
  split at read
  · rename_i s' same
    obtain ⟨rfl,rfl⟩ := List.cons.inj same
    cases scanned : scanQuoted line s with
    | error reason => simp [scanned,bind,Except.bind] at read
    | ok result =>
        obtain ⟨found,rest'⟩ := result
        simp only [scanned,bind,Except.bind] at read
        cases read
        obtain ⟨parts,⟨tail,rfl⟩,clean⟩ := scanQuoted_parts scanned
        refine ⟨false,_,.quoted (fun d member => ⟨(clean d member).2.1,(clean d member).1,(clean d member).2.2⟩) blanks,?_⟩
        rw [List.tail_cons] at after
        rw [parts,after]
        simp
  · rename_i quote
    obtain ⟨parts,goes,d,here,blank⟩ := scanPlain_parts read
    cases key with
    | nil =>
        rw [List.nil_append] at parts
        rw [← parts,List.head?_cons,Option.mem_some_iff] at here
        rw [here,blank] at blankless
        cases blankless
    | cons e key =>
        obtain ⟨rfl,rest'⟩ := List.cons.inj parts
        have quoteless : c ≠ '"' := fun same => quote s (by rw [same])
        have some' : gap ≠ [] := by
          rintro rfl
          rw [after] at here
          rw [halts d here] at blank
          cases blank
        refine ⟨true,_,.bare (by simpa [quoteless] using plain) goes blanks some',?_⟩
        rw [rest',after]
        simp

theorem value_part (read : readValue line (c :: s) = .ok (value,rest)) (spaceless : isSpace c = false) :
    ∃ bare two, ValuePart ⟨value,bare⟩ two ∧ c :: s = two ++ rest.tail ∧ rest ≠ [] := by
  unfold readValue at read
  split at read
  · rename_i s' same
    obtain ⟨rfl,rfl⟩ := List.cons.inj same
    obtain ⟨parts,⟨tail,rfl⟩,clean⟩ := scanQuoted_parts read
    refine ⟨false,_,.quoted (fun d member => ⟨(clean d member).2.1,(clean d member).1,(clean d member).2.2⟩),?_,by simp⟩
    rw [parts]
    simp
  · rename_i quote
    obtain ⟨parts,goes,d,here,halts⟩ := scanPlain_parts read
    obtain ⟨tail,rfl⟩ := List.head?_eq_some_iff.mp here
    cases value with
    | nil =>
        obtain ⟨rfl,-⟩ := List.cons.inj parts
        have spaces : isSpace c = true := halts
        rw [spaces] at spaceless
        cases spaceless
    | cons e value =>
        obtain ⟨rfl,rest'⟩ := List.cons.inj parts
        refine ⟨true,_,.bare (fun same => quote s (by rw [same])) goes halts,?_,by simp⟩
        rw [rest']
        simp

theorem entry_item (read : readEntry blockKey line (c :: s) = .ok (key,value,rest)) (plain : c ∉ ['{','}','/','\r','\n'])
    (blankless : isBlank c = false) : ∃ key' value' used, Item (some (.entry key' value')) used rest.tail ∧
      c :: s = used ++ rest.tail ∧ key'.text = key ∧ value'.text = value := by
  obtain ⟨rest1,rest2,readK,skipped,readV⟩ := readEntry_reads read
  obtain ⟨gap,d,tail,after,blanks,rfl,spaceless⟩ := skipBlanks_gap skipped
  have first : ∀ e ∈ (d :: tail).head?, isBlank e = false := by
    intro e here
    obtain rfl : d = e := by simpa using here
    simp only [isSpace,Bool.or_eq_false_iff] at spaceless
    exact spaceless.1.1
  obtain ⟨bareKey,one,keyPart,front⟩ := key_part readK plain blankless blanks after first
  obtain ⟨bareValue,two,valuePart,back,-⟩ := value_part readV spaceless
  refine ⟨_,_,_,.entry keyPart valuePart,?_,rfl,rfl⟩
  rw [front,back,List.append_assoc]

theorem closeless_rest (front : Str) {s : Str} (closeless : Closeless (front ++ s)) : Closeless s :=
  fun found => closeless (found.trans (List.suffix_append front s).isInfix)

theorem closeless_cons {s : Str} (closeless : Closeless s) (apart : ¬['*','/'] <+: c :: s) : Closeless (c :: s) := by
  intro found
  rcases List.infix_cons_iff.mp found with first | later
  · exact apart first
  · exact closeless later

theorem blockComment_closes {note : Str} (closeless : Closeless note) (line : Nat) (rest : Str) :
    ∃ line', blockComment (note ++ '*' :: '/' :: rest) line = .ok ('/' :: rest,line') := by
  generalize whole : note ++ '*' :: '/' :: rest = s
  fun_induction blockComment s line generalizing note with
  | case1 line => simp at whole
  | case2 c line =>
      have long := congrArg List.length whole
      simp only [List.length_append,List.length_cons,List.length_nil] at long
      omega
  | case3 c d s line stops =>
      obtain ⟨rfl,rfl⟩ := stops
      cases note with
      | nil =>
          simp only [List.nil_append,List.cons.injEq,true_and] at whole
          exact ⟨line,by rw [whole]⟩
      | cons x note =>
          obtain ⟨rfl,more⟩ := List.cons.inj whole
          cases note with
          | nil => simp at more
          | cons y note =>
              obtain ⟨rfl,-⟩ := List.cons.inj more
              exact absurd (List.prefix_append ['*','/'] note).isInfix closeless
  | case4 c d s line goes feeds ih =>
      obtain ⟨rfl,rfl⟩ := feeds
      cases note with
      | nil => simp at whole
      | cons x note =>
          obtain ⟨rfl,more⟩ := List.cons.inj whole
          cases note with
          | nil => simp at more
          | cons y note =>
              obtain ⟨rfl,later⟩ := List.cons.inj more
              exact ih (closeless_rest ['\r','\n'] closeless) later
  | case5 c d s line goes feeds breaks ih =>
      cases note with
      | nil =>
          simp only [List.nil_append,List.cons.injEq] at whole
          exact absurd ⟨whole.1.symm,whole.2.1.symm⟩ goes
      | cons x note =>
          obtain ⟨rfl,more⟩ := List.cons.inj whole
          exact ih (closeless_rest [x] closeless) more
  | case6 c d s line goes feeds breaks ih =>
      cases note with
      | nil =>
          simp only [List.nil_append,List.cons.injEq] at whole
          exact absurd ⟨whole.1.symm,whole.2.1.symm⟩ goes
      | cons x note =>
          obtain ⟨rfl,more⟩ := List.cons.inj whole
          exact ih (closeless_rest [x] closeless) more

theorem blockComment_reads (read : blockComment s line = .ok (rest,line')) :
    (rest = [] ∧ LeftOpen s) ∨ ∃ note tail, Closeless note ∧ s = note ++ '*' :: '/' :: tail ∧ rest = '/' :: tail := by
  have longer : ∀ c d (s : Str), ¬['*','/'] <+: c :: d :: s ↔ ¬(c = '*' ∧ d = '/') := by
    intro c d s
    simp [List.cons_prefix_cons,eq_comm]
  have grows : ∀ c d (s : Str), ¬(c = '*' ∧ d = '/') → ((rest = [] ∧ LeftOpen (d :: s)) ∨
      ∃ note tail, Closeless note ∧ d :: s = note ++ '*' :: '/' :: tail ∧ rest = '/' :: tail) → (rest = [] ∧ LeftOpen (c :: d :: s)) ∨
      ∃ note tail, Closeless note ∧ c :: d :: s = note ++ '*' :: '/' :: tail ∧ rest = '/' :: tail := by
    rintro c d s apart (⟨ended,closeless,shape⟩ | ⟨note,tail,closeless,parts,same⟩)
    · rcases shape with nothing | feeds
      · cases nothing
      · exact .inl ⟨ended,closeless_cons closeless ((longer c d s).mpr apart),.inr (feeds.trans (List.suffix_cons _ _))⟩
    · refine .inr ⟨c :: note,tail,closeless_cons closeless ?_,by rw [parts]; rfl,same⟩
      cases note with
      | nil => simp [List.cons_prefix_cons]
      | cons e note =>
          obtain ⟨rfl,-⟩ := List.cons.inj parts
          exact (longer c d note).mpr apart
  fun_induction blockComment s line with
  | case1 line =>
      cases read
      exact .inl ⟨rfl,by simp [Closeless],.inl rfl⟩
  | case2 c line => cases read
  | case3 c d s line stops =>
      obtain ⟨rfl,rfl⟩ := stops
      cases read
      exact .inr ⟨[],s,by simp [Closeless],rfl,rfl⟩
  | case4 c d s line goes feeds ih =>
      obtain ⟨rfl,rfl⟩ := feeds
      rcases ih read with ⟨ended,closeless,shape⟩ | found
      · have front : Closeless ('\r' :: '\n' :: s) := by
          refine closeless_cons (closeless_cons closeless ?_) ?_
          · simp [List.cons_prefix_cons]
          · simp [List.cons_prefix_cons]
        refine .inl ⟨ended,front,.inr ?_⟩
        rcases shape with rfl | feeds
        · exact List.suffix_refl _
        · exact feeds.trans ((List.suffix_cons _ _).trans (List.suffix_cons _ _))
      · obtain ⟨note,tail,closeless,parts,same⟩ := found
        refine .inr ⟨'\r' :: '\n' :: note,tail,closeless_cons (closeless_cons closeless ?_) ?_,by rw [parts]; rfl,same⟩
        · simp [List.cons_prefix_cons]
        · simp [List.cons_prefix_cons]
  | case5 c d s line goes feeds breaks ih => exact grows c d s goes (ih read)
  | case6 c d s line goes feeds breaks ih => exact grows c d s goes (ih read)

theorem blockComment_left {note : Str} (left : LeftOpen note) (line : Nat) : ∃ line', blockComment note line = .ok ([],line') := by
  obtain ⟨closeless,shape⟩ := left
  have later : ∀ c d (s : Str), ¬(c = '\r' ∧ d = '\n') → (c :: d :: s = [] ∨ ['\r','\n'] <:+ c :: d :: s) →
      d :: s = [] ∨ ['\r','\n'] <:+ d :: s := by
    intro c d s apart shape
    rcases shape with nothing | feeds
    · cases nothing
    · rcases List.suffix_cons_iff.mp feeds with same | feeds
      · simp only [List.cons.injEq] at same
        exact absurd ⟨same.1.symm,same.2.1.symm⟩ apart
      · exact .inr feeds
  fun_induction blockComment note line with
  | case1 line => exact ⟨line,rfl⟩
  | case2 c line =>
      rcases shape with nothing | feeds
      · cases nothing
      · have long := feeds.length_le
        simp at long
  | case3 c d s line stops =>
      obtain ⟨rfl,rfl⟩ := stops
      exact absurd (List.prefix_append ['*','/'] s).isInfix closeless
  | case4 c d s line goes feeds ih =>
      refine ih (closeless_rest [c,d] closeless) ?_
      obtain ⟨rfl,rfl⟩ := feeds
      rcases shape with nothing | ends
      · cases nothing
      · rcases List.suffix_cons_iff.mp ends with same | ends
        · simp only [List.cons.injEq,true_and] at same
          exact .inl same.symm
        · rcases List.suffix_cons_iff.mp ends with same | ends
          · simp at same
          · exact .inr ends
  | case5 c d s line goes feeds breaks ih => exact ih (closeless_rest [c] closeless) (later c d s feeds shape)
  | case6 c d s line goes feeds breaks ih => exact ih (closeless_rest [c] closeless) (later c d s feeds shape)

theorem lineComment_over {note : Str} (oneLine : OneLine note) (s : Str) (line : Nat) : lineComment (note ++ s) line = lineComment s line := by
  induction note with
  | nil => rfl
  | cons c note ih =>
      obtain ⟨carriage,feed⟩ := oneLine c (by simp)
      rw [List.cons_append,lineComment.eq_def]
      simp only [if_neg carriage,if_neg feed]
      exact ih (fun d member => oneLine d (by simp [member]))

-- A '//' comment ends with its line, or with the file.
theorem lineComment_shape (s : Str) : ∃ note rest, OneLine note ∧ s = note ++ rest ∧
    (rest = [] ∨ (∃ t, rest = '\n' :: t) ∨ ∃ t, rest = '\r' :: t) := by
  induction s with
  | nil => exact ⟨[],[],by simp [OneLine],rfl,.inl rfl⟩
  | cons c s ih =>
      by_cases feed : c = '\n'
      · exact ⟨[],c :: s,by simp [OneLine],rfl,.inr (.inl ⟨s,by rw [feed]⟩)⟩
      · by_cases carriage : c = '\r'
        · exact ⟨[],c :: s,by simp [OneLine],rfl,.inr (.inr ⟨s,by rw [carriage]⟩)⟩
        · obtain ⟨note,rest,oneLine,rfl,shape⟩ := ih
          refine ⟨c :: note,rest,?_,rfl,shape⟩
          intro d member
          rcases List.mem_cons.mp member with rfl | later
          · exact ⟨carriage,feed⟩
          · exact oneLine d later

theorem keyPart_first (part : KeyPart key one) : ∃ c tail, one = c :: tail ∧ c ∉ ['{','}','/','\r','\n'] ∧ isBlank c = false := by
  cases part with
  | quoted clean blanks => exact ⟨'"',_,rfl,by decide,by decide⟩
  | @bare c key gap plain goes blanks some' =>
      refine ⟨c,_,rfl,?_,goes c (by simp)⟩
      simp only [List.mem_cons,List.not_mem_nil,or_false,not_or] at plain ⊢
      exact ⟨plain.1,plain.2.1,plain.2.2.1,plain.2.2.2.2⟩

theorem step_block {note : Str} (closeless : Closeless note) (h : Heap Entry) (block line : Nat) (rest : Str) :
    ∃ line', parseStep ⟨h,block,'/' :: '*' :: (note ++ '*' :: '/' :: rest),line⟩ = .next ⟨h,block,rest,line'⟩ := by
  obtain ⟨line',read⟩ := blockComment_closes closeless line rest
  refine ⟨line',?_⟩
  simp only [parseStep,read,goOn]

theorem step_line {note : Str} (oneLine : OneLine note) (h : Heap Entry) (block line : Nat) (s : Str) :
    parseStep ⟨h,block,'/' :: '/' :: (note ++ s),line⟩ =
      (lineComment s line).elim (.done (.tree h)) (fun read => goOn h block read.2 read.1) := by
  simp only [parseStep,lineComment_over oneLine]
  cases lineComment s line <;> rfl

theorem step_carriage {rest : Str} (apart : rest.head? ≠ some '\n') (h : Heap Entry) (block line : Nat) :
    parseStep ⟨h,block,'\r' :: rest,line⟩ = .next ⟨h,block,rest,line + 1⟩ := by
  cases rest with
  | nil => rfl
  | cons d rest =>
      have feed : d ≠ '\n' := fun same => apart (by rw [same]; rfl)
      unfold parseStep
      simp only
      split <;> simp_all [goOn]

theorem skip_item (item : Item none used rest) (h : Heap Entry) (block line : Nat) :
    ∃ line', Reaches parseStep ⟨h,block,used ++ rest,line⟩ ⟨h,block,rest,line'⟩ := by
  cases item with
  | space blank =>
      simp only [List.mem_cons,List.not_mem_nil,or_false] at blank
      rcases blank with rfl | rfl | rfl
      · exact ⟨line,.one rfl⟩
      · exact ⟨line,.one rfl⟩
      · exact ⟨line + 1,.one rfl⟩
  | carriage apart => exact ⟨line + 1,.one (step_carriage apart h block line)⟩
  | carriageFeed => exact ⟨line + 1,.one rfl⟩
  | block closeless =>
      obtain ⟨line',taken⟩ := step_block closeless h block line rest
      refine ⟨line',.one ?_⟩
      simpa using taken
  | line oneLine =>
      have taken := step_line oneLine h block line ('\n' :: rest)
      refine ⟨line + 1,.one ?_⟩
      simpa [lineComment,goOn] using taken
  | @lineFeed note _ oneLine =>
      have taken := step_line oneLine h block line ('\r' :: '\n' :: rest)
      have first : parseStep ⟨h,block,'/' :: '/' :: (note ++ ['\r','\n']) ++ rest,line⟩ = .next ⟨h,block,'\n' :: rest,line + 1⟩ := by
        simpa [lineComment,goOn] using taken
      exact ⟨line + 1 + 1,.head first (.one rfl)⟩
  | @lineCarriage note d _ oneLine apart =>
      have taken := step_line oneLine h block line ('\r' :: d :: rest)
      refine ⟨line + 1,.one ?_⟩
      simpa [lineComment,goOn,apart] using taken

theorem rewind_dead {h : Heap Entry} (dead : cell h block = none) : Linked.rewind h block = none := by
  unfold Linked.rewind
  cases h.length with
  | zero => rfl
  | succ fuel => simp [walkBack,dead]

-- An item does to the tree what its token does. Where that is nothing, no tree is returned.
theorem item_goes (item : Item token used rest) (h : Heap Entry) (block line : Nat) :
    (∃ later q line', token.toList.foldlM applyToken (h,block) = some (later,q) ∧
      Reaches parseStep ⟨h,block,used ++ rest,line⟩ ⟨later,q,rest,line'⟩) ∨
    (token.toList.foldlM applyToken (h,block) = none ∧
      (parseStep ⟨h,block,used ++ rest,line⟩ = .fault ∨ ∃ reason, parseStep ⟨h,block,used ++ rest,line⟩ = .done (.exit reason))) := by
  cases token with
  | none =>
      obtain ⟨line',reaches⟩ := skip_item item h block line
      exact .inl ⟨h,block,line',rfl,reaches⟩
  | some token =>
      have single : ∀ st, (some token).toList.foldlM applyToken st = applyToken st token := by
        intro st
        simp
      rw [single]
      cases item with
      | opened =>
          cases opens : openBrace h block with
          | none => exact .inr ⟨opens,.inl (by simp [parseStep,opens])⟩
          | some after => exact .inl ⟨after.1,after.2,line,opens,.one (by simp [parseStep,opens,goOn])⟩
      | closed =>
          cases closes : closeBrace h block with
          | none => exact .inr ⟨by simp [applyToken,closes],.inl (by simp [parseStep,closes])⟩
          | some parent =>
              cases parent with
              | none => exact .inr ⟨by simp [applyToken,closes],.inr ⟨.mismatchedBrace line,by simp [parseStep,closes]⟩⟩
              | some parent => exact .inl ⟨h,parent,line,by simp [applyToken,closes],.one (by simp [parseStep,closes,goOn])⟩
      | @entry key one value two _ keyPart valuePart =>
          obtain ⟨c,tail,starts,plain,blankless⟩ := keyPart_first keyPart
          have whole : one ++ two ++ rest = c :: (tail ++ (two ++ rest)) := by simp [starts]
          have taken := step_word plain blankless h block line (tail ++ (two ++ rest))
          rw [← whole,takeEntry] at taken
          cases live : cell h block with
          | none => exact .inr ⟨by simp [applyToken,insertEntry,rewind_dead live],.inl (by rw [taken,live])⟩
          | some n =>
              obtain ⟨d,read⟩ := entry_read keyPart valuePart n.label.key line rest
              rw [live] at taken
              simp only [read] at taken
              cases inserts : insertEntry h block key.text value.text with
              | none => exact .inr ⟨inserts,.inl (by rw [taken,inserts])⟩
              | some after => exact .inl ⟨after.1,after.2,line,inserts,.one (by rw [taken,inserts]; rfl)⟩

-- What the parser ends at with a tree: the end of the text, or a '//' comment that ends it.
def Stops (s : Str) : Prop := s = [] ∨ ∃ note, OneLine note ∧ (s = '/' :: '/' :: note ∨ s = '/' :: '/' :: (note ++ ['\r']))

theorem stops_done (stops : Stops s) (h : Heap Entry) (block line : Nat) : parseStep ⟨h,block,s,line⟩ = .done (.tree h) := by
  rcases stops with rfl | ⟨note,oneLine,rfl | rfl⟩
  · rfl
  · have taken := step_line oneLine h block line []
    rw [List.append_nil] at taken
    exact taken
  · exact step_line oneLine h block line ['\r']

theorem left_faults {note : Str} (left : LeftOpen note) (h : Heap Entry) (block line : Nat) :
    parseStep ⟨h,block,'/' :: '*' :: note,line⟩ = .fault := by
  obtain ⟨line',read⟩ := blockComment_left left line
  simp only [parseStep,read,goOn]

theorem slash_shape (h : Heap Entry) (block line : Nat) (s : Str) :
    (∃ token used rest, Item token used rest ∧ '/' :: s = used ++ rest) ∨ (∃ note, LeftOpen note ∧ '/' :: s = '/' :: '*' :: note) ∨
      Stops ('/' :: s) ∨ ∃ reason, parseStep ⟨h,block,'/' :: s,line⟩ = .done (.exit reason) := by
  cases s with
  | nil => exact .inr (.inr (.inr ⟨.straySlash line,rfl⟩))
  | cons d s =>
      by_cases star : d = '*'
      · subst star
        cases read : blockComment s line with
        | error reason => exact .inr (.inr (.inr ⟨reason,by simp only [parseStep,read]⟩))
        | ok found =>
            obtain ⟨rest,line'⟩ := found
            rcases blockComment_reads read with ⟨-,left⟩ | ⟨note,tail,closeless,rfl,-⟩
            · exact .inr (.inl ⟨s,left,rfl⟩)
            · exact .inl ⟨_,_,tail,.block closeless,by simp⟩
      by_cases second : d = '/'
      · subst second
        obtain ⟨note,rest,oneLine,rfl,shape⟩ := lineComment_shape s
        rcases shape with rfl | ⟨tail,rfl⟩ | ⟨tail,rfl⟩
        · exact .inr (.inr (.inl (.inr ⟨note,oneLine,.inl (by simp)⟩)))
        · exact .inl ⟨_,_,tail,.line oneLine,by simp⟩
        · cases tail with
          | nil => exact .inr (.inr (.inl (.inr ⟨note,oneLine,.inr rfl⟩)))
          | cons e tail =>
              by_cases feed : e = '\n'
              · subst feed
                exact .inl ⟨_,_,tail,.lineFeed oneLine,by simp⟩
              · exact .inl ⟨_,_,tail,.lineCarriage oneLine feed,by simp⟩
      · refine .inr (.inr (.inr ⟨.straySlash line,?_⟩))
        unfold parseStep
        simp only
        split <;> simp_all

-- What a text starts with: an item, or a comment that is left open. Else the parser ends there.
theorem text_shape (h : Heap Entry) (block line : Nat) (s : Str) :
    (∃ token used rest, Item token used rest ∧ s = used ++ rest) ∨ (∃ note, LeftOpen note ∧ s = '/' :: '*' :: note) ∨
      Stops s ∨ (∃ reason, parseStep ⟨h,block,s,line⟩ = .done (.exit reason)) ∨
      cell h block = none ∧ parseStep ⟨h,block,s,line⟩ = .fault := by
  cases s with
  | nil => exact .inr (.inr (.inl (.inl rfl)))
  | cons c s =>
      by_cases brace : c = '{'
      · exact .inl ⟨_,_,s,.opened,by rw [brace]; rfl⟩
      by_cases close : c = '}'
      · exact .inl ⟨_,_,s,.closed,by rw [close]; rfl⟩
      by_cases space : c ∈ [' ','\t','\n']
      · exact .inl ⟨_,_,s,.space space,rfl⟩
      by_cases carriage : c = '\r'
      · subst carriage
        by_cases feed : s.head? = some '\n'
        · obtain ⟨rest,rfl⟩ := List.head?_eq_some_iff.mp feed
          exact .inl ⟨_,_,rest,.carriageFeed,rfl⟩
        · exact .inl ⟨_,_,s,.carriage feed,rfl⟩
      by_cases slash : c = '/'
      · subst slash
        rcases slash_shape h block line s with item | left | stops | ends
        · exact .inl item
        · exact .inr (.inl left)
        · exact .inr (.inr (.inl stops))
        · exact .inr (.inr (.inr (.inl ends)))
      · have blanks : c ≠ ' ' ∧ c ≠ '\t' ∧ c ≠ '\n' := by simpa using space
        have plain : c ∉ ['{','}','/','\r','\n'] := by simp [brace,close,slash,carriage,blanks]
        have blankless : isBlank c = false := by simp [isBlank,blanks]
        have taken := step_word plain blankless h block line s
        rw [takeEntry] at taken
        cases live : cell h block with
        | none =>
            rw [live] at taken
            exact .inr (.inr (.inr (.inr ⟨rfl,taken⟩)))
        | some n =>
            rw [live] at taken
            simp only at taken
            cases read : readEntry n.label.key line (c :: s) with
            | error reason => exact .inr (.inr (.inr (.inl ⟨reason,by rw [taken,read]⟩)))
            | ok found =>
                obtain ⟨key,value,rest⟩ := found
                obtain ⟨key',value',used,item,parts,-,-⟩ := entry_item read plain blankless
                exact .inl ⟨_,used,rest.tail,item,parts⟩

end Trollbot.Tconfig
