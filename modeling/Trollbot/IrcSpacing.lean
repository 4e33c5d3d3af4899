import Mathlib.Data.List.Chain
import Trollbot.IrcLine

-- Lines whose separators are runs of spaces, and the words the parser finds in them.
namespace Trollbot.IrcParse
-- A command, the middles and the trailing text, each with the number of further spaces in front of it.
structure Spaced where
  command : Str
  middles : List (Nat × Str)
  trailing : Option (Nat × Str)

def gap (further : Nat) : Str := ' ' :: List.replicate further ' '

def spacedMiddles (middles : List (Nat × Str)) : Str := middles.flatMap (fun middle => gap middle.1 ++ middle.2)

def spacedTrailer : Option (Nat × Str) → Str
  | none => []
  | some (further,text) => gap further ++ ':' :: text

def Spaced.render (line : Spaced) : Str := line.command ++ (spacedMiddles line.middles ++ spacedTrailer line.trailing)

structure Spaced.WellFormed (line : Spaced) : Prop where
  command : Word line.command
  middles : ∀ middle ∈ line.middles, Word middle.2
  clean : ∀ c ∈ line.render, c ≠ CBuffer.nul ∧ c ≠ '\r' ∧ c ≠ '\n'

-- The maximal words of a text without a space.
def maximalWords (text : Str) : List Str := (text.splitOn ' ').filter (fun w => w ≠ [])

-- The words of a token array; there are none where there is no array.
def arrayWords : Option Slots → Option (List Str)
  | none => some []
  | some slots => words slots

def trailingWords : Option (Nat × Str) → List Str
  | none => []
  | some (_,text) => maximalWords text

def Spaced.Splits (netNick : Str) (line : Spaced) : Prop :=
  ∃ data, decode netNick line.render = some data ∧ arrayWords data.cParams = some (line.middles.map Prod.snd) ∧
    arrayWords data.rest = some (trailingWords line.trailing)

def Apart (a b : Char) : Prop := ¬(a = ' ' ∧ b = ' ')

-- A parameter, one space in front of each part, and no space in the trailing text that is not between two words or at its end.
structure Spaced.Single (line : Spaced) : Prop where
  parameter : line.middles ≠ [] ∨ line.trailing ≠ none
  middles : ∀ middle ∈ line.middles, middle.1 = 0
  trailing : ∀ further text, line.trailing = some (further,text) → further = 0 ∧ List.IsChain Apart (' ' :: text)

theorem maximal_words (member : w ∈ maximalWords text) : w ≠ [] ∧ ' ' ∉ w := by
  obtain ⟨inside,some'⟩ := List.mem_filter.mp member
  exact ⟨by simpa using some',CBuffer.split_pieces text w inside⟩

theorem chain_word (letter : d ≠ ' ') (v : Str) (spaceless : ' ' ∉ v) (rest : ∀ c, c ≠ ' ' → List.IsChain Apart (c :: s)) :
    List.IsChain Apart (d :: (v ++ s)) := by
  induction v generalizing d with
  | nil => exact rest d letter
  | cons e v ih =>
      have next : e ≠ ' ' := fun same => spaceless (by simp [same])
      rw [List.cons_append,List.isChain_cons_cons]
      exact ⟨fun both => letter both.1,ih next (fun member => spaceless (by simp [member]))⟩

-- Words with single spaces between them, and one at the end or not, have no two spaces next to each other.
theorem chain_middles (found : List Str) (each : ∀ w ∈ found, w ≠ [] ∧ ' ' ∉ w) (letter : last ≠ ' ') (tail : Str)
    (ends : tail = [] ∨ tail = [' ']) : List.IsChain Apart (last :: (middleText found ++ tail)) := by
  induction found generalizing last with
  | nil =>
      rcases ends with rfl | rfl
      · exact .singleton _
      · simp [middleText,Apart,letter]
  | cons w found ih =>
      obtain ⟨some',spaceless⟩ := each w (by simp)
      cases w with
      | nil => exact absurd rfl some'
      | cons d v =>
          have first : d ≠ ' ' := fun same => spaceless (by simp [same])
          have word : ' ' ∉ v := fun member => spaceless (by simp [member])
          have whole : last :: (middleText ((d :: v) :: found) ++ tail) = last :: ' ' :: d :: (v ++ (middleText found ++ tail)) := by
            simp [middleText]
          rw [whole,List.isChain_cons_cons,List.isChain_cons_cons]
          refine ⟨fun both => letter both.1,fun both => first both.2,chain_word first v word ?_⟩
          intro c other
          exact ih (fun w member => each w (by simp [member])) other

theorem chain_join (found : List Str) (each : ∀ w ∈ found, w ≠ [] ∧ ' ' ∉ w) (some' : found ≠ []) (tail : Str)
    (ends : tail = [] ∨ tail = [' ']) : List.IsChain Apart (' ' :: (join found ++ tail)) := by
  obtain ⟨first,rest,rfl⟩ := List.exists_cons_of_ne_nil some'
  obtain ⟨full,spaceless⟩ := each first (by simp)
  rw [join_middles]
  cases first with
  | nil => exact absurd rfl full
  | cons d v =>
      have letter : d ≠ ' ' := fun same => spaceless (by simp [same])
      have word : ' ' ∉ v := fun member => spaceless (by simp [member])
      rw [List.append_assoc,List.cons_append,List.isChain_cons_cons]
      refine ⟨fun both => letter both.2,chain_word letter v word ?_⟩
      intro c other
      exact chain_middles rest (fun w member => each w (by simp [member])) other tail ends

-- A text without two spaces next to each other, and without one in front, is its words with single spaces between them.
theorem single_join (pieces : List Str) (some' : pieces ≠ []) (spaceless : ∀ w ∈ pieces, ' ' ∉ w)
    (chain : List.IsChain Apart (' ' :: [' '].intercalate pieces)) :
    ([' '].intercalate pieces = [] ∧ pieces.filter (fun w => w ≠ []) = []) ∨ (pieces.filter (fun w => w ≠ []) ≠ [] ∧
      ∃ gap : Bool, [' '].intercalate pieces = join (pieces.filter (fun w => w ≠ [])) ++ if gap then [' '] else []) := by
  induction pieces with
  | nil => exact absurd rfl some'
  | cons w pieces ih =>
      cases pieces with
      | nil =>
          by_cases empty : w = []
          · exact .inl (by simp [empty])
          · exact .inr ⟨by simp [empty],false,by simp [empty,join]⟩
      | cons second pieces =>
          rw [List.intercalate_cons_cons] at chain ⊢
          cases w with
          | nil => exact absurd ⟨rfl,rfl⟩ (List.isChain_cons_cons.mp chain).1
          | cons d v =>
              have later : List.IsChain Apart (' ' :: [' '].intercalate (second :: pieces)) := by
                have whole : List.IsChain Apart ((' ' :: d :: v) ++ ' ' :: [' '].intercalate (second :: pieces)) := by simpa using chain
                exact whole.right_of_append
              have kept : (((d :: v) :: second :: pieces).filter (fun w => w ≠ [])) =
                  (d :: v) :: ((second :: pieces).filter (fun w => w ≠ [])) := by simp
              rw [kept]
              refine .inr ⟨by simp,?_⟩
              rcases ih (by simp) (fun w member => spaceless w (by simp [member])) later with ⟨nothing,none'⟩ | ⟨more,gap,spelled⟩
              · refine ⟨true,?_⟩
                rw [nothing,none']
                simp [join]
              · refine ⟨gap,?_⟩
                rw [spelled]
                obtain ⟨first,rest,found⟩ := List.exists_cons_of_ne_nil more
                rw [found]
                simp [join]

theorem maximal_join (text : Str) (chain : List.IsChain Apart (' ' :: text)) : (text = [] ∧ maximalWords text = []) ∨
    (maximalWords text ≠ [] ∧ ∃ gap : Bool, text = join (maximalWords text) ++ if gap then [' '] else []) := by
  have whole : [' '].intercalate (text.splitOn ' ') = text := List.intercalate_splitOn ' '
  have single := single_join (text.splitOn ' ') (List.splitOn_ne_nil _ _) (CBuffer.split_pieces text) (by rwa [whole])
  rwa [whole] at single

-- What a loop reads is spelled by its words; the space in front of the colon or at the end opens no word.
theorem tokenize_spells (n : Nat) (s : Str) (short : s.length ≤ n) (plain : Plain s) (holds : Holds t done w)
    (spelled : join (done ++ [w]) = t.str) (read : tokenize middle last s (some t) = some (next',left)) :
    ∃ next found, next' = some next ∧ next.str ++ left = t.str ++ s ∧ words next.slots = some found ∧ found ≠ [] ∧
      (join found = next.str ∨ join found ++ [' '] = next.str) ∧ (left = [] ∨ left.head? = some ':') := by
  induction n generalizing s t done w last with
  | zero =>
      obtain rfl := List.eq_nil_of_length_eq_zero (by omega : s.length = 0)
      cases read
      exact ⟨t,done ++ [w],rfl,rfl,holds_words holds,by simp,.inl spelled,.inl rfl⟩
  | succ n ih =>
      cases s with
      | nil =>
          cases read
          exact ⟨t,done ++ [w],rfl,rfl,holds_words holds,by simp,.inl spelled,.inl rfl⟩
      | cons c s =>
          simp only [List.length_cons] at short
          obtain ⟨carriage,feed⟩ := plain c (by simp)
          have later : Plain s := fun d member => plain d (by simp [member])
          by_cases colon : middle = true ∧ c = ':' ∧ last = ' '
          · simp only [tokenize,colon,and_self,or_true,if_true,Option.some.injEq,Prod.mk.injEq] at read
            obtain ⟨rfl,rfl⟩ := read
            exact ⟨t,done ++ [w],rfl,by rw [colon.2.1],holds_words holds,by simp,.inl spelled,.inr (by simp)⟩
          · by_cases space : c = ' '
            · subst space
              cases s with
              | nil =>
                  obtain ⟨moved,advanced,waits,moveStr⟩ := advance_waits holds
                  simp only [tokenize,Option.getD_some,advanced,Option.bind_eq_bind,Option.bind_some,Char.reduceEq,false_and,and_false,
                    or_self,if_false,if_true] at read
                  cases middle with
                  | true => cases read
                  | false =>
                      cases read
                      exact ⟨moved,done ++ [w],rfl,by simpa using moveStr,waits_words waits,by simp,
                        .inr (by rw [spelled,moveStr]),.inl rfl⟩
              | cons d s =>
                  simp only [List.length_cons] at short
                  have plainHead : Plain [d] := fun c member => later c (by simp_all)
                  by_cases ends : middle = true ∧ d = ':'
                  · obtain ⟨rfl,rfl⟩ := ends
                    obtain ⟨moved,advanced,waits,moveStr⟩ := advance_waits holds
                    simp only [tokenize,Option.getD_some,advanced,Option.bind_eq_bind,Option.bind_some,Char.reduceEq,false_and,and_false,
                      or_self,if_false,if_true,and_self,or_true,Option.some.injEq,Prod.mk.injEq] at read
                    obtain ⟨rfl,rfl⟩ := read
                    exact ⟨moved,done ++ [w],rfl,by rw [moveStr]; simp,waits_words waits,by simp,.inr (by rw [spelled,moveStr]),.inr rfl⟩
                  · obtain ⟨opened,step,fresh,str⟩ := tokenize_space middle last holds d plainHead ends
                    have again : join (done ++ [w] ++ [[d]]) = opened.str := by
                      rw [join_next _ (by simp),spelled,str]
                    rw [step] at read
                    obtain ⟨next,found,same,whole,reads,some',spells⟩ := ih s (by omega)
                      (fun c member => later c (by simp [member])) fresh again read
                    exact ⟨next,found,same,by rw [whole,str]; simp,reads,some',spells⟩
            · have inner : Inner middle last c := ⟨feed,carriage,space,colon⟩
              obtain ⟨opened,step,fresh,str⟩ := tokenize_inner inner (some t) holds
              have again : join (done ++ [w ++ [c]]) = opened.str := by
                rw [join_put,spelled,str]
                rfl
              rw [step] at read
              obtain ⟨next,found,same,whole,reads,some',spells⟩ := ih s (by omega) later fresh again read
              exact ⟨next,found,same,by rw [whole,str]; simp,reads,some',spells⟩

theorem word_head (word : Word w) : ∃ d v, w = d :: v ∧ d ≠ ' ' ∧ d ≠ ':' := by
  obtain ⟨some',spaceless,head⟩ := word
  cases w with
  | nil => exact absurd rfl some'
  | cons d v => exact ⟨d,v,rfl,fun same => spaceless (by simp [same]),by simpa using head⟩

-- Spaces before a word that is also there without them are no spaces.
theorem no_further (word : Word w) (same : w ++ s = List.replicate further ' ' ++ w ++ s') : further = 0 ∧ s = s' := by
  obtain ⟨d,v,rfl,letter,-⟩ := word_head word
  cases further with
  | zero => exact ⟨rfl,by simpa using same⟩
  | succ further =>
      simp only [List.replicate_succ,List.cons_append,List.cons.injEq] at same
      exact absurd same.1 letter

theorem single_gaps (middles : List (Nat × Str)) (well : ∀ middle ∈ middles, Word middle.2)
    (same : middleText (middles.map Prod.snd) ++ s = spacedMiddles middles ++ s') : (∀ middle ∈ middles, middle.1 = 0) ∧ s = s' := by
  induction middles with
  | nil => exact ⟨by simp,by simpa [middleText,spacedMiddles] using same⟩
  | cons middle middles ih =>
      obtain ⟨further,w⟩ := middle
      have inner : w ++ (middleText (middles.map Prod.snd) ++ s) =
          List.replicate further ' ' ++ w ++ (spacedMiddles middles ++ s') := by
        simpa [middleText,spacedMiddles,gap] using same
      obtain ⟨zero,later⟩ := no_further (well (further,w) (by simp)) inner
      obtain ⟨zeros,rest⟩ := ih (fun middle member => well middle (by simp [member])) later
      refine ⟨?_,rest⟩
      intro middle member
      rcases List.mem_cons.mp member with rfl | member
      · exact zero
      · exact zeros middle member

theorem new_tokens (middle : Bool) (going : ¬(c = '\n' ∨ c = '\r' ∨ (middle = true ∧ c = ':' ∧ last = ' '))) (s : Str) :
    tokenize middle last (c :: s) none = tokenize middle last (c :: s) (some .new) := by
  simp only [tokenize,going,if_false,Option.getD_none,Option.getD_some]

-- The trailing text, behind the words and at most one space of the parameters.
theorem trailer_left (trailing : Option (Nat × Str)) (left : Str) (halts : left = [] ∨ left.head? = some ':')
    (same : left = spacedTrailer trailing ∨ ' ' :: left = spacedTrailer trailing) :
    left = (trailer (trailing.map Prod.snd)).tail ∧ ∀ further text, trailing = some (further,text) → further = 0 := by
  cases trailing with
  | none =>
      simp only [spacedTrailer,reduceCtorEq,or_false] at same
      exact ⟨same,by simp⟩
  | some parts =>
      obtain ⟨further,text⟩ := parts
      have spaced : left = List.replicate further ' ' ++ ':' :: text := by
        rcases same with same | same
        · rw [same] at halts
          simp [spacedTrailer,gap] at halts
        · simpa [spacedTrailer,gap] using same
      cases further with
      | zero => exact ⟨spaced,by simp⟩
      | succ further =>
          rw [spaced] at halts
          simp [List.replicate_succ] at halts

theorem trailing_chain (text : Str) (plain : Plain text) (read : tokenize false ' ' text none = some (rest,left))
    (found : arrayWords (rest.map (·.slots)) = some (maximalWords text)) : List.IsChain Apart (' ' :: text) := by
  cases text with
  | nil => exact .singleton _
  | cons c text =>
      obtain ⟨next,words',again,-,reads,some',spells⟩ := tokenize_text (c :: text) (by simp) plain
      rw [again] at read
      cases read
      have same : words' = maximalWords (c :: text) := Option.some.inj (reads.symm.trans found)
      have chain := chain_join words' (fun w member => maximal_words (same ▸ member)) some'
      rcases spells with spelled | spelled
      · have joined := chain [] (.inl rfl)
        rwa [List.append_nil,spelled] at joined
      · have joined := chain [' '] (.inr rfl)
        rwa [spelled] at joined

-- The first loop finds the middles only where one space is in front of each, and of the colon.
theorem params_single (middles : List (Nat × Str)) (trailing : Option (Nat × Str)) (well : ∀ middle ∈ middles, Word middle.2)
    (behind : spacedMiddles middles ++ spacedTrailer trailing = ' ' :: p) (plain : Plain p)
    (read : tokenize true ' ' p none = some (params,left)) (found : arrayWords (params.map (·.slots)) = some (middles.map Prod.snd)) :
    (∀ middle ∈ middles, middle.1 = 0) ∧ left = (trailer (trailing.map Prod.snd)).tail ∧
      ∀ further text, trailing = some (further,text) → further = 0 := by
  have spelled : params = none ∧ p = left ∧ (left = [] ∨ left.head? = some ':') ∨ ∃ t words', params = some t ∧ t.str ++ left = p ∧
      words t.slots = some words' ∧ words' ≠ [] ∧ (join words' = t.str ∨ join words' ++ [' '] = t.str) ∧ (left = [] ∨ left.head? = some ':') := by
    cases p with
    | nil =>
        cases read
        exact .inl ⟨rfl,rfl,.inl rfl⟩
    | cons c s =>
        obtain ⟨carriage,feed⟩ := plain c (by simp)
        by_cases colon : c = ':'
        · subst colon
          simp only [tokenize,Char.reduceEq,and_self,or_true,if_true,Option.some.injEq,Prod.mk.injEq] at read
          obtain ⟨rfl,rfl⟩ := read
          exact .inl ⟨rfl,rfl,.inr rfl⟩
        · rw [new_tokens true (by simp [carriage,feed,colon]) s] at read
          obtain ⟨t,words',same,whole,reads,some',spells,halts⟩ := tokenize_spells _ (c :: s) (Nat.le_refl _) plain new_holds rfl read
          exact .inr ⟨t,words',same,whole,reads,some',spells,halts⟩
  cases middles with
  | nil =>
      rcases spelled with ⟨-,same,halts⟩ | ⟨t,words',rfl,-,reads,some',-⟩
      · refine ⟨by simp,trailer_left trailing left halts (.inr ?_)⟩
        rw [← same]
        exact behind.symm
      · exact absurd (Option.some.inj (reads.symm.trans found)) some'
  | cons middle middles =>
      obtain ⟨further,w⟩ := middle
      rcases spelled with ⟨rfl,-⟩ | ⟨t,words',rfl,whole,reads,-,spells,halts⟩
      · cases found
      · have same : words' = w :: middles.map Prod.snd := Option.some.inj (reads.symm.trans found)
        have text : p = List.replicate further ' ' ++ w ++ (spacedMiddles middles ++ spacedTrailer trailing) := by
          simpa [spacedMiddles,gap] using behind.symm
        have ends : ∃ tail, (tail = left ∨ tail = ' ' :: left) ∧ w ++ (middleText (middles.map Prod.snd) ++ tail) = p := by
          rw [same,join_middles] at spells
          rcases spells with joined | joined
          · exact ⟨left,.inl rfl,by rw [← whole,← joined,List.append_assoc]⟩
          · exact ⟨' ' :: left,.inr rfl,by rw [← whole,← joined]; simp⟩
        obtain ⟨tail,which,spelled⟩ := ends
        rw [text] at spelled
        obtain ⟨zero,later⟩ := no_further (well (further,w) (by simp)) spelled
        obtain ⟨zeros,last⟩ := single_gaps middles (fun middle member => well middle (by simp [member])) later
        refine ⟨?_,trailer_left trailing left halts ?_⟩
        · intro middle member
          rcases List.mem_cons.mp member with rfl | member
          · exact zero
          · exact zeros middle member
        · rcases which with rfl | rfl
          · exact .inl last
          · exact .inr last

theorem spaced_decode (netNick : Str) (command p : Str) (word : Word command) : decode netNick (command ++ ' ' :: p) =
    (tokenize true ' ' p none).bind fun params => (tokenize false ' ' params.2.tail none).bind fun rest =>
      some ⟨none,command,params.1.map (·.slots),params.1.map (·.str),rest.1.map (·.slots),rest.1.map (·.str)⟩ := by
  obtain ⟨d,v,rfl,-,colon⟩ := word_head word
  rw [decode_rest,List.cons_append,readPrefix_plain netNick colon]
  rw [Option.bind_some,decodeRest,← List.cons_append,takeTo_stop (d :: v) p word.2.1]
  rfl

theorem zero_middles (middles : List (Nat × Str)) (zero : ∀ middle ∈ middles, middle.1 = 0) :
    spacedMiddles middles = middleText (middles.map Prod.snd) := by
  induction middles with
  | nil => rfl
  | cons middle middles ih =>
      have first := zero middle (by simp)
      have rest := ih (fun middle member => zero middle (by simp [member]))
      unfold spacedMiddles middleText at rest ⊢
      rw [List.flatMap_cons,List.map_cons,List.flatMap_cons,rest,first]
      rfl

theorem single_splits (netNick : Str) (line : Spaced) (well : line.WellFormed) (single : line.Single) : line.Splits netNick := by
  obtain ⟨command,middles,trailing⟩ := line
  obtain ⟨word,words',clean⟩ := well
  obtain ⟨parameter,zero,last⟩ := single
  simp only at word words' parameter zero last
  let msg : Message := ⟨none,command,middles.map Prod.snd,trailing.map Prod.snd⟩
  have rendered : Spaced.render ⟨command,middles,trailing⟩ = msg.render := by
    have tail : spacedTrailer trailing = trailer (trailing.map Prod.snd) := by
      cases trailing with
      | none => rfl
      | some parts =>
          obtain ⟨further,text⟩ := parts
          rw [(last further text rfl).1]
          rfl
    simp only [Spaced.render,Message.render,Message.head,msg,zero_middles middles zero,tail,List.nil_append,List.append_assoc]
  have readable : msg.Readable := by
    refine ⟨by simp [msg],word,?_,?_,by rwa [← rendered]⟩
    · intro middle member
      obtain ⟨pair,inside,rfl⟩ := List.mem_map.mp member
      exact words' pair inside
    · rcases parameter with some' | some'
      · exact .inl (by simpa [msg] using some')
      · exact .inr (by simpa [msg] using some')
  obtain ⟨data,decoded,readout⟩ := decode_readout netNick msg readable
  refine ⟨data,by rw [rendered]; exact decoded,?_,?_⟩
  · by_cases empty : middles = []
    · subst empty
      rw [readout.noParams rfl]
      rfl
    · obtain ⟨slots,same,reads⟩ := readout.params (by simpa [msg] using empty)
      rw [same]
      exact reads
  · cases trailing with
    | none =>
        rw [(readout.silent rfl).1]
        rfl
    | some parts =>
        obtain ⟨further,text⟩ := parts
        rcases maximal_join text (last further text rfl).2 with ⟨rfl,none'⟩ | ⟨some',gap,spelled⟩
        · rw [(readout.silent rfl).1]
          exact congrArg some none'.symm
        · obtain ⟨slots,same,reads⟩ := decode_words netNick msg readable gap (congrArg some spelled) some'
            (fun w member => maximal_words member) decoded
          rw [same]
          exact reads

-- The parser finds the words of a line where single spaces separate them, and only there.
theorem splits_single (netNick : Str) (line : Spaced) (well : line.WellFormed) : line.Splits netNick ↔ line.Single := by
  refine ⟨?_,single_splits netNick line well⟩
  intro splits
  obtain ⟨data,read,params,rest⟩ := splits
  obtain ⟨command,middles,trailing⟩ := line
  obtain ⟨word,words',clean⟩ := well
  simp only at word words' params rest
  have parameter : middles ≠ [] ∨ trailing ≠ none := by
    by_contra neither
    rw [not_or,not_not,not_not] at neither
    obtain ⟨rfl,rfl⟩ := neither
    obtain ⟨d,v,rfl,-,colon⟩ := word_head word
    have missing := takeTo_none word.2.1
    simp only [Spaced.render,spacedMiddles,spacedTrailer,List.flatMap_nil,List.append_nil] at read
    rw [decode_rest,readPrefix_plain netNick colon,Option.bind_some,decodeRest,missing] at read
    cases read
  obtain ⟨p,behind⟩ : ∃ p, spacedMiddles middles ++ spacedTrailer trailing = ' ' :: p := by
    cases middles with
    | cons middle middles => exact ⟨_,rfl⟩
    | nil =>
        cases trailing with
        | some parts => exact ⟨_,rfl⟩
        | none => simp at parameter
  have plain : Plain p := by
    intro c member
    refine (clean c ?_).2
    rw [Spaced.render,behind]
    simp [member]
  simp only [Spaced.render,behind] at read
  rw [spaced_decode netNick command p word] at read
  obtain ⟨⟨params',left⟩,first,read⟩ := Option.bind_eq_some_iff.mp read
  obtain ⟨⟨rest',after⟩,second,read⟩ := Option.bind_eq_some_iff.mp read
  cases read
  obtain ⟨zeros,text,last⟩ := params_single middles trailing words' behind plain first params
  refine ⟨parameter,zeros,?_⟩
  intro further text' same
  subst same
  refine ⟨last further text' rfl,?_⟩
  have whole : left.tail = text' := by rw [text]; rfl
  rw [whole] at second
  have suffix := tokenize_suffix _ _ (Nat.le_refl _) first
  refine trailing_chain text' (fun c member => plain c (suffix.subset (List.mem_of_mem_tail ?_))) second rest
  rwa [whole]

def joinOnce : Spaced := ⟨['J','O','I','N'],[(0,['#','a']),(0,['k'])],none⟩
def joinTwice : Spaced := ⟨['J','O','I','N'],[(1,['#','a'])],none⟩
def passTwice : Spaced := ⟨['P'],[(0,['b'])],some (0,['p','a','s','s',' ',' ','x'])⟩

theorem joinTwice_well : joinTwice.WellFormed := ⟨by unfold Word; decide,by unfold Word; decide,by decide⟩

theorem joinOnce_splits : joinOnce.Single ∧ joinOnce.Splits ['b'] := by
  have well : joinOnce.WellFormed := ⟨by unfold Word; decide,by unfold Word; decide,by decide⟩
  have single : joinOnce.Single := ⟨.inl (by decide),by decide,nofun⟩
  exact ⟨single,(splits_single ['b'] joinOnce well).mpr single⟩

-- Two spaces give an empty parameter, or a password with a space in front.
theorem twice_missed : (joinTwice.WellFormed ∧ ¬joinTwice.Splits ['b']) ∧ passTwice.WellFormed ∧ ¬passTwice.Splits ['b'] := by
  refine ⟨⟨joinTwice_well,?_⟩,⟨by unfold Word; decide,by unfold Word; decide,by decide⟩,?_⟩
  · intro splits
    obtain ⟨data,read,params,-⟩ := splits
    have found : (decode ['b'] joinTwice.render).bind (fun data => arrayWords data.cParams) = some [[],['#','a']] := by decide
    rw [read,Option.bind_some,params] at found
    cases found
  · intro splits
    obtain ⟨data,read,-,rest⟩ := splits
    have found : (decode ['b'] passTwice.render).bind (fun data => arrayWords data.rest) = some [['p','a','s','s'],[' ','x']] := by decide
    rw [read,Option.bind_some,rest] at found
    have same : maximalWords ['p','a','s','s',' ',' ','x'] = [['p','a','s','s'],[' ','x']] := Option.some.inj found
    have member : [' ','x'] ∈ maximalWords ['p','a','s','s',' ',' ','x'] := by simp [same]
    exact (maximal_words member).2 (by simp)

end Trollbot.IrcParse
