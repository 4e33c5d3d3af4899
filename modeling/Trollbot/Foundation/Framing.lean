import Mathlib.Data.List.DropRight

-- Reading a stream of symbols line by line. `sep` marks the separators between lines and `flush`
-- the separators that make a reader hand out what it has collected.
namespace Framing
variable {α : Type} (sep flush : α → Bool)

def nonEmpty (lines : List (List α)) : List (List α) := lines.filter (fun line => !line.isEmpty)

-- The non-empty stretches of a text between separators.
def runs (s : List α) : List (List α) := nonEmpty (s.splitOnP sep)

-- The part of a stream up to and including its last flushing symbol.
def settled (s : List α) : List α := s.rdropWhile (fun c => !flush c)

-- What a reader owes its consumer once the stream `s` has arrived.
def frames (s : List α) : List (List α) := runs sep (settled flush s)

def lineOf (s : List α) : List α := s.takeWhile (fun c => !sep c)
def afterLine (s : List α) : List α := (s.dropWhile (fun c => !sep c)).dropWhile sep

-- A reader that cuts lines off its pending text for as long as a flushing symbol is in it.
def chopN : Nat → List α → List (List α) × List α
  | 0,s => ([],s)
  | n+1,s =>
    if s.any flush then
      let later := chopN n (afterLine sep s)
      (lineOf sep s :: later.1,later.2)
    else ([],s)

def chop (s : List α) : List (List α) × List α := chopN sep flush s.length s

def feedAll : List α → List (List α) → List (List α) × List α
  | pending,[] => ([],pending)
  | pending,chunk :: rest =>
    let now := chop sep flush (pending ++ chunk)
    let later := feedAll now.2 rest
    (now.1 ++ later.1,later.2)

theorem line_parts (found : ∃ c ∈ s, sep c = true) :
    ∃ stop rest, s = lineOf sep s ++ stop :: rest ∧ sep stop = true ∧
      afterLine sep s = rest.dropWhile sep := by
  have whole : lineOf sep s ++ s.dropWhile (fun c => !sep c) = s := List.takeWhile_append_dropWhile
  cases tail : s.dropWhile (fun c => !sep c) with
  | nil =>
      obtain ⟨c,member,isSep⟩ := found
      have none := List.dropWhile_eq_nil_iff.mp tail c member
      simp [isSep] at none
  | cons stop rest =>
      have stops : sep stop = true := by
        have := List.head_dropWhile_not (fun c => !sep c) (l := s) (by simp [tail])
        simpa [tail] using this
      exact ⟨stop,rest,by rw [← tail]; exact whole.symm,stops,by simp [afterLine,tail,stops]⟩

theorem lineOf_plain : ∀ c ∈ lineOf sep s, sep c = false := by
  intro c member
  simpa using List.mem_takeWhile_imp member

theorem afterLine_shorter (found : ∃ c ∈ s, sep c = true) :
    (afterLine sep s).length < s.length := by
  obtain ⟨stop,rest,whole,_,dropped⟩ := line_parts sep found
  have le : (rest.dropWhile sep).length ≤ rest.length := (List.dropWhile_suffix sep).length_le
  have length := congrArg List.length whole
  simp only [List.length_append,List.length_cons] at length
  rw [dropped]
  omega

@[simp] theorem nonEmpty_append (a b : List (List α)) : nonEmpty (a ++ b) = nonEmpty a ++ nonEmpty b := by
  simp [nonEmpty]

@[simp] theorem runs_nil : runs sep [] = [] := by simp [runs,nonEmpty]

theorem runs_append_cons (a b : List α) {c : α} (isSep : sep c = true) :
    runs sep (a ++ c :: b) = runs sep a ++ runs sep b := by
  simp [runs,List.splitOnP_append_cons a b isSep]

theorem runs_cons (b : List α) {c : α} (isSep : sep c = true) : runs sep (c :: b) = runs sep b := by
  simpa using runs_append_cons sep [] b isSep

theorem runs_dropWhile (s : List α) : runs sep (s.dropWhile sep) = runs sep s := by
  induction s with
  | nil => simp
  | cons c rest ih =>
      by_cases isSep : sep c = true
      · rw [List.dropWhile_cons_of_pos isSep,ih,runs_cons sep rest isSep]
      · rw [List.dropWhile_cons_of_neg isSep]

theorem runs_separators (a b : List α) (all : ∀ c ∈ a, sep c = true) : runs sep (a ++ b) = runs sep b := by
  induction a with
  | nil => rfl
  | cons c rest ih =>
      rw [List.cons_append,runs_cons sep _ (all c (by simp))]
      exact ih (fun d member => all d (by simp [member]))

theorem runs_plain (line : List α) (plain : ∀ c ∈ line, sep c = false) : runs sep line = nonEmpty [line] := by
  rw [runs,List.splitOnP_eq_singleton plain]

-- A settled text is empty or ends in a flushing symbol, so runs do not straddle its end.
theorem settled_end (s : List α) :
    settled flush s = [] ∨ ∃ front stop, settled flush s = front ++ [stop] ∧ flush stop = true := by
  by_cases empty : settled flush s = []
  · exact .inl empty
  · refine .inr ⟨_,_,(List.dropLast_append_getLast empty).symm,?_⟩
    simpa [settled] using List.rdropWhile_last_not (fun c => !flush c) s empty

theorem settled_prefix (s : List α) : ∃ tail, s = settled flush s ++ tail ∧ ∀ c ∈ tail, flush c = false := by
  refine ⟨s.rtakeWhile (fun c => !flush c),List.rdropWhile_append_rtakeWhile.symm,?_⟩
  intro c member
  simpa using List.mem_rtakeWhile_imp member

theorem settled_quiet (s : List α) (quiet : ∀ c ∈ s, flush c = false) : settled flush s = [] := by
  simpa [settled,List.rdropWhile_eq_nil_iff] using quiet

theorem settled_append_flush (a b : List α) {c : α} (flushes : flush c = true) :
    settled flush (a ++ c :: b) = a ++ c :: settled flush b := by
  induction b using List.reverseRecOn with
  | nil => simpa [settled] using List.rdropWhile_concat_neg (fun c => !flush c) a c (by simp [flushes])
  | append_singleton front d ih =>
      have regroup : a ++ c :: (front ++ [d]) = (a ++ c :: front) ++ [d] := by simp
      by_cases last : flush d = true
      · rw [regroup,settled,List.rdropWhile_concat_neg _ _ _ (by simp [last]),settled,
          List.rdropWhile_concat_neg _ _ _ (by simp [last])]
        simp
      · rw [regroup,settled,List.rdropWhile_concat_pos _ _ _ (by simpa using last),settled,
          List.rdropWhile_concat_pos _ _ _ (by simpa using last)]
        exact ih

theorem chop_quiet {s : List α} (quiet : s.any flush = false) : chop sep flush s = ([],s) := by
  cases s with
  | nil => simp [chop,chopN]
  | cons c rest => simp [chop,chopN,quiet]

-- Ended texts are the possible settled parts.
def Ended (s : List α) : Prop := s = [] ∨ ∃ front stop, s = front ++ [stop] ∧ flush stop = true

theorem runs_line (line gap rest : List α) (plain : ∀ c ∈ line, sep c = false)
    (gaps : ∀ c ∈ gap, sep c = true) (some : gap ≠ []) :
    runs sep (line ++ gap ++ rest) = nonEmpty [line] ++ runs sep rest := by
  cases gap with
  | nil => exact absurd rfl some
  | cons stop gap =>
      rw [List.append_assoc,List.cons_append,runs_append_cons sep _ _ (gaps stop (by simp)),
        runs_plain sep line plain,runs_separators sep gap rest (fun c member => gaps c (by simp [member]))]

theorem frames_gap (gap b : List α) (gaps : ∀ c ∈ gap, sep c = true) (quiet : ∀ c ∈ gap, flush c = false) :
    frames sep flush (gap ++ b) = frames sep flush b := by
  obtain ⟨tail,whole,rest⟩ := settled_prefix flush b
  rcases settled_end flush b with none | ⟨first,last,some,isFlush⟩
  · rw [none,List.nil_append] at whole
    rw [frames,frames,none,settled_quiet flush]
    intro c member
    rcases List.mem_append.mp member with inGap | inB
    · exact quiet c inGap
    · exact rest c (whole ▸ inB)
  · have regroup : gap ++ b = (gap ++ first) ++ last :: tail := by rw [whole,some]; simp
    rw [frames,frames,regroup,settled_append_flush flush _ _ isFlush,settled_quiet flush _ rest,some,
      List.append_assoc,runs_separators sep gap _ gaps]

section
variable {sep flush} (flushes : ∀ c, flush c = true → sep c = true)
include flushes

theorem any_sep {s : List α} (found : s.any flush = true) : ∃ c ∈ s, sep c = true := by
  obtain ⟨c,member,isFlush⟩ := List.any_eq_true.mp found
  exact ⟨c,member,flushes c isFlush⟩

theorem frames_append (a gap b : List α) (ended : Ended flush a)
    (gaps : ∀ c ∈ gap, sep c = true) (quiet : ∀ c ∈ gap, flush c = false) :
    frames sep flush (a ++ gap ++ b) = runs sep a ++ frames sep flush b := by
  rcases ended with rfl | ⟨front,stop,rfl,isFlush⟩
  · simpa using frames_gap sep flush gap b gaps quiet
  · have regroup : front ++ [stop] ++ gap ++ b = front ++ stop :: (gap ++ b) := by simp
    have isSep := flushes stop isFlush
    rw [regroup,frames,settled_append_flush flush _ _ isFlush,runs_append_cons sep _ _ isSep,
      runs_append_cons sep _ _ isSep,runs_nil,List.append_nil,← frames,frames_gap sep flush gap b gaps quiet]

-- One read hands over exactly the runs of the settled part of its text; what stays behind lost
-- only separators at its front.
theorem chopN_spec {s : List α} (enough : s.length ≤ n) :
    ∃ done gap, s = done ++ (gap ++ (chopN sep flush n s).2) ∧ Ended flush done ∧
      (∀ c ∈ gap, sep c = true) ∧ (∀ c ∈ gap ++ (chopN sep flush n s).2, flush c = false) ∧
      nonEmpty (chopN sep flush n s).1 = runs sep done := by
  induction n generalizing s with
  | zero =>
      have empty : s = [] := List.eq_nil_of_length_eq_zero (by omega)
      subst empty
      exact ⟨[],[],by simp [chopN],.inl rfl,by simp,by simp [chopN],by simp [chopN,nonEmpty]⟩
  | succ n ih =>
      cases found : s.any flush with
      | false =>
          refine ⟨[],[],by simp [chopN,found],.inl rfl,by simp,?_,by simp [chopN,found,nonEmpty]⟩
          intro c member
          simpa using List.any_eq_false.mp found c (by simpa [chopN,found] using member)
      | true =>
          have seps := any_sep flushes found
          obtain ⟨stop,rest,whole,isSep,after⟩ := line_parts sep seps
          have shorter := afterLine_shorter sep seps
          obtain ⟨done,gap,split,ended,gaps,quiet,lines⟩ := ih (s := afterLine sep s) (by omega)
          have plain := lineOf_plain sep (s := s)
          -- the separators skipped right after the line
          let skip := (stop :: rest).takeWhile sep
          have skips : ∀ c ∈ skip, sep c = true := fun c member => List.mem_takeWhile_imp member
          have skipSome : skip ≠ [] := by simp [skip,isSep]
          have pieces : s = lineOf sep s ++ (skip ++ afterLine sep s) := by
            conv_lhs => rw [whole,← List.takeWhile_append_dropWhile (p := sep) (l := stop :: rest)]
            rw [List.dropWhile_cons_of_pos isSep,after]
          have result : chopN sep flush (n+1) s =
              (lineOf sep s :: (chopN sep flush n (afterLine sep s)).1,(chopN sep flush n (afterLine sep s)).2) := by
            simp [chopN,found]
          have handed : nonEmpty (chopN sep flush (n+1) s).1 = nonEmpty [lineOf sep s] ++ runs sep done := by
            rw [result,← lines,← nonEmpty_append]; rfl
          rw [handed,result]
          rcases ended with rfl | ⟨front,last,rfl,isFlush⟩
          · -- nothing later was settled: the flushing symbol is among the skipped separators
            obtain ⟨quietTail,skipSplit,tailQuiet⟩ := settled_prefix flush skip
            have skipEnded : ∃ front last, settled flush skip = front ++ [last] ∧ flush last = true := by
              rcases settled_end flush skip with none | some
              · exfalso
                obtain ⟨c,member,isFlush⟩ := List.any_eq_true.mp found
                rw [pieces] at member
                rcases List.mem_append.mp member with inLine | inRest
                · simpa [flushes c isFlush] using plain c inLine
                · rcases List.mem_append.mp inRest with inSkip | inAfter
                  · rw [skipSplit,none,List.nil_append] at inSkip
                    simpa [isFlush] using tailQuiet c inSkip
                  · rw [split,List.nil_append] at inAfter
                    simpa [isFlush] using quiet c inAfter
              · exact some
            obtain ⟨front,last,skipDone,isFlush⟩ := skipEnded
            refine ⟨lineOf sep s ++ settled flush skip,quietTail ++ gap,?_,?_,?_,?_,?_⟩
            · conv_lhs => rw [pieces,split,skipSplit]
              simp
            · exact .inr ⟨lineOf sep s ++ front,last,by simp [skipDone],isFlush⟩
            · intro c member
              rcases List.mem_append.mp member with inTail | inGap
              · exact skips c (by rw [skipSplit]; simp [inTail])
              · exact gaps c inGap
            · intro c member
              rw [List.append_assoc] at member
              rcases List.mem_append.mp member with inTail | inRest
              · exact tailQuiet c inTail
              · exact quiet c inRest
            · have := runs_line sep (lineOf sep s) (settled flush skip) [] plain
                (fun c member => skips c (by rw [skipSplit]; simp [member])) (by simp [skipDone])
              simpa using this.symm
          · refine ⟨lineOf sep s ++ skip ++ (front ++ [last]),gap,?_,?_,gaps,quiet,?_⟩
            · conv_lhs => rw [pieces,split]
              simp
            · exact .inr ⟨lineOf sep s ++ skip ++ front,last,by simp,isFlush⟩
            · exact (runs_line sep _ skip _ plain skips skipSome).symm

theorem chop_spec (s : List α) :
    ∃ done gap, s = done ++ (gap ++ (chop sep flush s).2) ∧ Ended flush done ∧
      (∀ c ∈ gap, sep c = true) ∧ (∀ c ∈ gap ++ (chop sep flush s).2, flush c = false) ∧
      nonEmpty (chop sep flush s).1 = runs sep done := chopN_spec flushes (Nat.le_refl _)

theorem chopN_enough {s : List α} (enough : s.length ≤ n) : chopN sep flush n s = chop sep flush s := by
  suffices same : ∀ m, s.length ≤ m → chopN sep flush n s = chopN sep flush m s from same _ (Nat.le_refl _)
  intro m room
  induction n generalizing s m with
  | zero =>
      have empty : s = [] := List.eq_nil_of_length_eq_zero (by omega)
      subst empty
      cases m <;> simp [chopN]
  | succ n ih =>
      cases found : s.any flush with
      | false => cases m <;> simp [chopN,found]
      | true =>
          have shorter := afterLine_shorter sep (any_sep flushes found)
          cases m with
          | zero => omega
          | succ m => simp only [chopN,found,if_true,ih (s := afterLine sep s) (by omega) m (by omega)]

theorem chop_found {s : List α} (found : s.any flush = true) :
    chop sep flush s = (lineOf sep s :: (chop sep flush (afterLine sep s)).1,(chop sep flush (afterLine sep s)).2) := by
  have shorter := afterLine_shorter sep (any_sep flushes found)
  rw [← chopN_enough flushes (s := s) (n := s.length + 1) (by omega),
    ← chopN_enough flushes (s := afterLine sep s) (n := s.length) (by omega)]
  simp [chopN,found]

-- However a stream is cut into chunks, the non-empty lines handed over are its frames.
theorem feedAll_frames (pending : List α) (chunks : List (List α)) (quiet : ∀ c ∈ pending, flush c = false) :
    nonEmpty (feedAll sep flush pending chunks).1 = frames sep flush (pending ++ chunks.flatten) := by
  induction chunks generalizing pending with
  | nil => simp [feedAll,nonEmpty,frames,settled_quiet flush pending quiet]
  | cons chunk rest ih =>
      obtain ⟨done,gap,split,ended,gaps,still,lines⟩ := chop_spec flushes (pending ++ chunk)
      have next := ih (chop sep flush (pending ++ chunk)).2 (fun c member => still c (by simp [member]))
      have regroup : pending ++ (chunk :: rest).flatten =
          done ++ gap ++ ((chop sep flush (pending ++ chunk)).2 ++ rest.flatten) := by
        have joined := congrArg (· ++ rest.flatten) split
        simpa only [List.flatten_cons,List.append_assoc] using joined
      rw [feedAll,nonEmpty_append,lines,next,regroup,frames_append flushes done gap _ ended gaps]
      exact fun c member => still c (by simp [member])
end

-- Lines that each end in a gap of quiet separators and a flushing one.
def endLines (gap : List α) (last : α) (lines : List (List α)) : List α := lines.flatMap (fun line => line ++ gap ++ [last])

-- Such lines are handed out as they are.
structure LinesEnd (gap : List α) (last : α) (lines : List (List α)) : Prop where
  gap : ∀ c ∈ gap, sep c = true ∧ flush c = false
  last : sep last = true ∧ flush last = true
  lines : ∀ line ∈ lines, line ≠ [] ∧ ∀ c ∈ line, sep c = false

section
variable {sep flush} {gap : List α} {last : α} (flushes : ∀ c, flush c = true → sep c = true)
include flushes

theorem lines_front {line more s t : List α} (ends : LinesEnd sep flush gap last (line :: rest))
    (whole : s ++ t = line ++ gap ++ [last] ++ more) (found : s.any flush = true) : ∃ s', s = line ++ gap ++ [last] ++ s' ∧ s' ++ t = more := by
  rcases List.append_eq_append_iff.mp whole with ⟨x,longer,split⟩ | ⟨x,longer,split⟩
  · rcases List.eq_nil_or_concat x with rfl | ⟨front,stop,rfl⟩
    · exact ⟨[],by simpa using longer.symm,by simpa using split⟩
    · exfalso
      have inside : line ++ gap = s ++ front := by
        have same : line ++ gap ++ [last] = s ++ front ++ [stop] := by simpa using longer
        exact (List.append_inj' same rfl).1
      obtain ⟨c,member,isFlush⟩ := List.any_eq_true.mp found
      have there : c ∈ line ++ gap := by
        rw [inside]
        exact List.mem_append_left _ member
      rcases List.mem_append.mp there with inLine | inGap
      · have plain := (ends.lines line (by simp)).2 c inLine
        rw [flushes c isFlush] at plain
        cases plain
      · have quiet := (ends.gap c inGap).2
        rw [isFlush] at quiet
        cases quiet
  · exact ⟨x,longer,split.symm⟩

omit flushes in
theorem lineOf_front {line s' : List α} (ends : LinesEnd sep flush gap last (line :: rest)) (ended : s' ++ t = endLines gap last rest) :
    lineOf sep (line ++ gap ++ [last] ++ s') = line ∧ afterLine sep (line ++ gap ++ [last] ++ s') = s' := by
  have plain : ∀ c ∈ line, (!sep c) = true := by
    intro c member
    simp [(ends.lines line (by simp)).2 c member]
  have seps : ∀ c ∈ gap ++ [last], sep c = true := by
    intro c member
    rcases List.mem_append.mp member with inGap | inLast
    · exact (ends.gap c inGap).1
    · rw [List.mem_singleton.mp inLast]
      exact ends.last.1
  have next : s'.dropWhile sep = s' := by
    cases s' with
    | nil => rfl
    | cons c s' =>
        cases rest with
        | nil => cases ended
        | cons other rest =>
            obtain ⟨some',clean⟩ := ends.lines other (by simp)
            obtain ⟨d,others,rfl⟩ := List.exists_cons_of_ne_nil some'
            have first : c = d := (List.cons.inj ended).1
            rw [first,List.dropWhile_cons_of_neg]
            simp [clean d (by simp)]
  have stops : ∃ c more, gap ++ [last] ++ s' = c :: more ∧ sep c = true := by
    cases gap with
    | nil => exact ⟨last,s',rfl,ends.last.1⟩
    | cons c gap => exact ⟨c,_,rfl,(ends.gap c (by simp)).1⟩
  obtain ⟨c,more,tail,isSep⟩ := stops
  have whole : line ++ gap ++ [last] ++ s' = line ++ (gap ++ [last] ++ s') := by simp
  have rest' : (line ++ (gap ++ [last] ++ s')).dropWhile (fun c => !sep c) = gap ++ [last] ++ s' := by
    rw [List.dropWhile_append_of_pos plain,tail,List.dropWhile_cons_of_neg (by simp [isSep])]
  constructor
  · rw [whole,lineOf,List.takeWhile_append_of_pos plain,tail,List.takeWhile_cons_of_neg (by simp [isSep]),List.append_nil]
  · rw [whole,afterLine,rest',List.dropWhile_append_of_pos seps,next]

theorem chop_ended {lines : List (List α)} (ends : LinesEnd sep flush gap last lines) (s t : List α) (whole : s ++ t = endLines gap last lines) :
    ∃ done rest, lines = done ++ rest ∧ (chop sep flush s).1 = done ∧ (chop sep flush s).2 ++ t = endLines gap last rest ∧
      ∀ c ∈ (chop sep flush s).2, flush c = false := by
  induction lines generalizing s with
  | nil =>
      obtain ⟨rfl,rfl⟩ := List.append_eq_nil_iff.mp whole
      exact ⟨[],[],rfl,by simp [chop,chopN],by simp [chop,chopN,endLines],by simp [chop,chopN]⟩
  | cons line rest ih =>
      cases found : s.any flush with
      | false =>
          refine ⟨[],line :: rest,rfl,by rw [chop_quiet sep flush found],by rw [chop_quiet sep flush found]; exact whole,?_⟩
          rw [chop_quiet sep flush found]
          intro c member
          simpa using List.any_eq_false.mp found c member
      | true =>
          obtain ⟨s',rfl,ended⟩ := lines_front flushes ends whole found
          obtain ⟨front,behind⟩ := lineOf_front ends ended
          have others : LinesEnd sep flush gap last rest := ⟨ends.gap,ends.last,fun other member => ends.lines other (by simp [member])⟩
          obtain ⟨done,left,split,handed,kept,quiet⟩ := ih others s' ended
          rw [chop_found flushes found,front,behind]
          exact ⟨line :: done,left,by rw [split]; rfl,by rw [handed],kept,quiet⟩

-- However a stream of whole lines is cut, they are the lines that are handed over.
theorem feedAll_ended {lines : List (List α)} (ends : LinesEnd sep flush gap last lines) (pending : List α) (chunks : List (List α))
    (quiet : ∀ c ∈ pending, flush c = false) (whole : pending ++ chunks.flatten = endLines gap last lines) :
    (feedAll sep flush pending chunks).1 = lines := by
  induction chunks generalizing pending lines with
  | nil =>
      cases lines with
      | nil => rfl
      | cons line rest =>
          have inside : last ∈ pending := by
            rw [List.flatten_nil,List.append_nil] at whole
            rw [whole]
            simp [endLines]
          have flush' := ends.last.2
          rw [quiet last inside] at flush'
          cases flush'
  | cons chunk chunks ih =>
      rw [List.flatten_cons,← List.append_assoc] at whole
      obtain ⟨done,rest,rfl,handed,kept,still⟩ := chop_ended flushes ends (pending ++ chunk) chunks.flatten whole
      have others : LinesEnd sep flush gap last rest := ⟨ends.gap,ends.last,fun other member => ends.lines other (by simp [member])⟩
      rw [feedAll,handed,ih others (chop sep flush (pending ++ chunk)).2 still kept]

end

end Framing
