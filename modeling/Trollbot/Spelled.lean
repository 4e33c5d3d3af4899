import Trollbot.IrcTrigger

-- One message in two spellings, and the token arrays that it is read into.
namespace Trollbot.Irc
open CBuffer IrcParse

-- The last parameter as a middle one, and after a colon.
def middleForm (origin : Option Origin) (command : Str) (middles : List Str) (p : Str) : Message :=
  ⟨origin,command,middles ++ [p],none⟩

def colonForm (origin : Option Origin) (command : Str) (middles : List Str) (p : Str) : Message :=
  ⟨origin,command,middles,some p⟩

-- `slots` with the last parameter behind the others, `others` without it: the cells differ in its place,
-- and behind it where the growth left a cell out.
structure Twin (n : Nat) (slots others : Slots) : Prop where
  same : ∀ i, i ≠ n → i ≠ n + 1 → slots[i]? = others[i]?
  room : n + 1 < others.length
  behind : ∀ i, n < i → i < others.length → others[i]? = some (blank i)

-- How the two are decoded: `data` from the middle form, `other` from the one with the colon.
structure Spelled (netNick : Str) (origin : Option Origin) (command : Str) (middles : List Str) (p : Str)
    (data other : IrcData) : Prop where
  prefixes : data.pre = origin.map (Origin.asPrefix netNick) ∧ other.pre = data.pre
  commands : data.command = command ∧ other.command = command
  params : ∃ slots, data.cParams = some slots ∧ words slots = some (middles ++ [p])
  otherParams : (middles = [] ∧ other.cParams = none) ∨ (middles ≠ [] ∧ ∃ slots, other.cParams = some slots ∧ words slots = some middles)
  twins : ∀ slots others, data.cParams = some slots → other.cParams = some others → Twin middles.length slots others
  rest : data.rest = none ∧ data.restStr = none
  otherRest : (∃ slots, other.rest = some slots ∧ words slots = some [p]) ∧ other.restStr = some p

theorem colon_clean (well : (middleForm origin command middles p).WellFormed) : (colonForm origin command middles p).WellFormed := by
  have word := well.middles p (by simp [middleForm])
  refine ⟨well.origin,well.command,?_,by simpa [colonForm] using word.1,.inr (by simp [colonForm]),?_⟩
  · intro middle member
    have inside : middle ∈ middles := member
    exact well.middles middle (by simp [middleForm,inside])
  · intro c member
    have colon : ':' ≠ nul ∧ ':' ≠ '\r' ∧ ':' ≠ '\n' := by decide
    by_cases same : c = ':'
    · exact same ▸ colon
    · refine well.clean c ?_
      simp only [colonForm,middleForm,Message.render,Message.head,middleText,trailer,List.mem_append,List.flatMap_append,
        List.mem_cons,same,false_or] at member ⊢
      simp only [List.flatMap_cons,List.flatMap_nil,List.append_nil,List.mem_cons]
      tauto

theorem put_frame (put : Tokens.put t c = some next) (differs : i ≠ t.bufindex) : next.slots[i]? = t.slots[i]? := by
  unfold Tokens.put at put
  split at put
  · cases put
    exact List.getElem?_set_ne (Ne.symm differs)
  · cases put

theorem open_frame (opened : Tokens.openWord t = some next) (differs : i ≠ t.bufindex) (behind : i ≠ t.bufindex + 1) :
    next.slots[i]? = t.slots[i]? := by
  simp only [Tokens.openWord,Option.bind_eq_bind,Option.bind_eq_some_iff] at opened
  obtain ⟨slots,written,same⟩ := opened
  cases same
  show slots[i]? = t.slots[i]?
  rw [write_get written,if_neg]
  simp only [List.length_cons,List.length_nil]
  omega

-- The rest of a word changes its own cell.
theorem tokenize_frame (word : ∀ c ∈ v, c ≠ ' ' ∧ c ≠ '\r' ∧ c ≠ '\n') (before : last ≠ ' ') (holds : Holds t done w) :
    ∃ next, tokenize true last v (some t) = some (some next,[]) ∧ Holds next done (w ++ v) ∧
      ∀ i, i ≠ done.length → next.slots[i]? = t.slots[i]? := by
  induction v generalizing last t w with
  | nil => exact ⟨t,rfl,by simpa using holds,fun _ _ => rfl⟩
  | cons c v ih =>
      obtain ⟨space,carriage,feed⟩ := word c (by simp)
      obtain ⟨opened,put,holds',-⟩ := put_holds holds c
      obtain ⟨next,read,held,frame⟩ := ih (fun d member => word d (by simp [member])) space holds'
      refine ⟨next,?_,by simpa using held,?_⟩
      · simp only [tokenize,Option.getD_some,put,Option.bind_eq_bind,Option.bind_some]
        simpa [carriage,feed,space,before] using read
      · intro i differs
        exact (frame i differs).trans (put_frame put (by rw [holds.index]; exact differs))

-- From the space behind the other parameters, both spellings of the last one.
theorem tokenize_both (last : Char) (word : Word p) (plain : Plain p) (holds : Holds t closed v) :
    ∃ next moved, tokenize true last (' ' :: p) (some t) = some (some next,[]) ∧
      tokenize true last (' ' :: ':' :: p) (some t) = some (some moved,':' :: p) ∧
      Twin (closed ++ [v]).length next.slots moved.slots := by
  obtain ⟨some',spaceless,head⟩ := word
  obtain ⟨d,tail,rfl⟩ := List.exists_cons_of_ne_nil some'
  obtain ⟨carriage,feed⟩ := plain d (by simp)
  have notColon : d ≠ ':' := by simpa using head
  have notSpace : d ≠ ' ' := fun same => spaceless (by simp [same])
  obtain ⟨moved,advanced,waits,-⟩ := advance_waits holds
  obtain ⟨opened,opens,fresh,-⟩ := open_holds waits
  obtain ⟨begun,put,holds',-⟩ := put_holds fresh d
  obtain ⟨next,read,held,frame⟩ := tokenize_frame (word_tail spaceless plain) notSpace holds'
  have index := waits.index
  have size := waits.size
  have room := waits.room
  refine ⟨next,moved,?_,?_,?_,?_,?_⟩
  · simp only [tokenize,Option.getD_some,advanced,opens,put,Option.bind_eq_bind,Option.bind_some]
    simpa [carriage,feed,notColon] using read
  · simp [tokenize,advanced]
  · intro i differs behind
    have opening : opened.bufindex = moved.bufindex := fresh.index.trans index.symm
    rw [frame i differs,put_frame put (by omega),open_frame opens (by omega) (by omega)]
  · omega
  · rw [← index]
    exact waits.fresh

theorem spelled_twins (some' : middles ≠ []) (netNick : Str) (well : (middleForm origin command middles p).WellFormed)
    (read : decode netNick (middleForm origin command middles p).render = some data)
    (again : decode netNick (colonForm origin command middles p).render = some other)
    (slots : data.cParams = some cells) (others : other.cParams = some cells') : Twin middles.length cells cells' := by
  obtain ⟨params,rest,decoded,loop,-,-,-,-,-⟩ := decode_parts netNick _ well.readable
  obtain ⟨params',rest',decoded',loop',-,-,-,-,-⟩ := decode_parts netNick _ (colon_clean well).readable
  have plain : ∀ middle ∈ middles ++ [p], Word middle ∧ Plain middle := by
    intro middle member
    refine ⟨well.middles middle member,?_⟩
    intro c inside
    refine (well.clean c ?_).2
    have inMiddles : c ∈ middleText (middles ++ [p]) := List.mem_flatMap.mpr ⟨middle,member,by simp [inside]⟩
    simp [Message.render,middleForm,inMiddles]
  have last := plain p (by simp)
  obtain ⟨reached,after,closed,v,step,-,holds,rfl⟩ := tokenize_start middles some' (fun middle member => plain middle (by simp [member]))
  obtain ⟨next,moved,one,two,twin⟩ := tokenize_both after last.1 last.2 holds
  have first : middleText (closed ++ [v] ++ [p]) ++ trailer none = middleText (closed ++ [v]) ++ ' ' :: p := by
    simp [middleText,trailer]
  simp only [middleForm,first] at loop
  simp only [colonForm] at loop'
  rw [step,one] at loop
  rw [step,trailer,two] at loop'
  rw [decoded] at read
  rw [decoded'] at again
  cases read
  cases again
  cases loop
  cases loop'
  cases slots
  cases others
  exact twin

theorem spelled (netNick : Str) (well : (middleForm origin command middles p).WellFormed) :
    ∃ data other, decode netNick (middleForm origin command middles p).render = some data ∧
      decode netNick (colonForm origin command middles p).render = some other ∧
      Spelled netNick origin command middles p data other := by
  have word := well.middles p (by simp [middleForm])
  obtain ⟨data,read,first⟩ := decode_readout netNick _ well.readable
  obtain ⟨other,readOther,second⟩ := decode_readout netNick _ (colon_clean well).readable
  obtain ⟨text,slots,found,rest,reads,-,spells⟩ := second.spoken p rfl word.1
  refine ⟨data,other,read,readOther,⟨⟨first.pre,second.pre.trans first.pre.symm⟩,⟨first.command,second.command⟩,
    first.params (by simp [middleForm]),?_,?_,first.silent rfl,?_,text⟩⟩
  · by_cases none' : middles = []
    · exact .inl ⟨none',second.noParams none'⟩
    · exact .inr ⟨none',second.params none'⟩
  · intro cells cells' one two
    refine spelled_twins ?_ netNick well read readOther one two
    intro none'
    rw [second.noParams none'] at two
    cases two
  · obtain rfl := join_word word spells
    exact ⟨slots,rest,reads⟩

theorem slot_word {slots : Slots} (read : words slots = some found) (here : found[i]? = some w) :
    slot (some slots) i = some (some w) := by
  simp [slot,(words_cells read).1 i w here]

theorem slot_end {slots : Slots} (read : words slots = some found) : slot (some slots) found.length = some none := by
  simp [slot,(words_cells read).2]

-- The place is read alike: it is not the last parameter's, and the one behind it is clear.
def Kept (n i : Nat) : Prop := i ≠ n ∧ (i = n + 1 → Clear i)

instance (n i : Nat) : Decidable (Kept n i) := inferInstanceAs (Decidable (_ ∧ _))

theorem kept_before (early : i < n) : Kept n i := ⟨by omega,by omega⟩

section
variable (spelled : Spelled netNick origin command middles p data other)
include spelled

-- The parameters before the last one are the same.
theorem Spelled.same (early : i < middles.length) :
    slot data.cParams i = some middles[i]? ∧ slot other.cParams i = some middles[i]? := by
  obtain ⟨slots,params,read⟩ := spelled.params
  have here : middles[i]? = some middles[i] := List.getElem?_eq_getElem early
  rw [here,params]
  refine ⟨slot_word read (by rw [List.getElem?_append_left early,here]),?_⟩
  rcases spelled.otherParams with ⟨rfl,-⟩ | ⟨-,slots',params',read'⟩
  · simp at early
  · rw [params']
    exact slot_word read' here

theorem Spelled.last : slot data.cParams middles.length = some (some p) := by
  obtain ⟨slots,params,read⟩ := spelled.params
  rw [params]
  exact slot_word read (by simp)

theorem Spelled.ended : slot data.cParams (middles.length + 1) = some none := by
  obtain ⟨slots,params,read⟩ := spelled.params
  have stop := slot_end read
  rw [List.length_append,List.length_singleton] at stop
  rw [params]
  exact stop

-- Without other parameters there is no array in the second spelling.
theorem Spelled.missing (empty : middles = []) (i : Nat) : slot other.cParams i = none := by
  rcases spelled.otherParams with ⟨-,none'⟩ | ⟨some',-⟩
  · rw [none']
    rfl
  · exact absurd empty some'

theorem Spelled.stopped (some' : middles ≠ []) : slot other.cParams middles.length = some none := by
  rcases spelled.otherParams with ⟨empty,-⟩ | ⟨-,slots,params,read⟩
  · exact absurd empty some'
  · rw [params]
    exact slot_end read

theorem Spelled.behind (some' : middles ≠ []) : slot other.cParams (middles.length + 1) = blank (middles.length + 1) := by
  obtain ⟨slots,params,-⟩ := spelled.params
  rcases spelled.otherParams with ⟨empty,-⟩ | ⟨-,others,params',-⟩
  · exact absurd empty some'
  · simp only [params',slot,Option.bind_eq_bind,Option.bind_some,
      (spelled.twins slots others params params').behind _ (by omega) (spelled.twins slots others params params').room]

theorem Spelled.kept (some' : middles ≠ []) (kept : Kept middles.length i) : slot data.cParams i = slot other.cParams i := by
  obtain ⟨differs,clear⟩ := kept
  by_cases next : i = middles.length + 1
  · subst next
    rw [spelled.ended,spelled.behind some',blank,if_pos (clear rfl)]
  · obtain ⟨slots,params,-⟩ := spelled.params
    rcases spelled.otherParams with ⟨empty,-⟩ | ⟨-,others,params',-⟩
    · exact absurd empty some'
    · simp only [params,params',slot,Option.bind_eq_bind,Option.bind_some,(spelled.twins slots others params params').same i differs next]

-- The strings of the second array are the other parameters.
theorem Spelled.filled (found : slot other.cParams i = some (some w)) : i < middles.length := by
  by_contra late
  rcases spelled.otherParams with ⟨empty,-⟩ | ⟨some',others,params',-⟩
  · rw [spelled.missing empty] at found
    cases found
  · by_cases last : i = middles.length
    · rw [last,spelled.stopped some'] at found
      cases found
    · obtain ⟨slots,params,-⟩ := spelled.params
      have twin := spelled.twins slots others params params'
      simp only [params',slot,Option.bind_eq_bind,Option.bind_some] at found
      by_cases inside : i < others.length
      · rw [twin.behind i (by omega) inside,Option.bind_some,blank] at found
        split at found <;> cases found
      · rw [List.getElem?_eq_none (by omega)] at found
        cases found

-- A place that both spellings can read is read alike, or is the last parameter's.
theorem Spelled.read (some' : middles ≠ []) (again : slot other.cParams i = some found) : Kept middles.length i ∨ i = middles.length := by
  by_cases last : i = middles.length
  · exact .inr last
  · refine .inl ⟨last,?_⟩
    rintro rfl
    rw [spelled.behind some',blank] at again
    split at again
    · assumption
    · cases again

end

end Trollbot.Irc
