import Trollbot.IrcScan

-- The lines parse_irc_line reads without leaving them.
namespace Trollbot.IrcParse
open CBuffer

def behindSpace (s : Str) : Str := (s.dropWhile (fun c => c ≠ ' ')).tail

-- The number of spaces a text ends with.
def lastSpaces (s : Str) : Nat := (s.reverse.takeWhile (fun c => c = ' ')).length

-- The parameters come to an end at a ':' behind a space, or with spaces in pairs.
def ParamsEnd (last : Char) (s : Str) : Prop := [' ',':'] <:+: last :: s ∨ lastSpaces s % 2 = 0

-- A '!' in the word in front has an '@' behind it.
def MaskEnds (word : Str) : Prop := '!' ∈ word → '@' ∈ word.dropWhile (fun c => c ≠ '!')

-- A command with a space behind it, and the parameters.
def CommandEnds (s : Str) : Prop := ' ' ∈ s ∧ ParamsEnd ' ' (behindSpace s)

def LineReads : Str → Prop
  | ':' :: s => ' ' ∈ s ∧ MaskEnds (s.takeWhile (fun c => c ≠ ' ')) ∧ CommandEnds (behindSpace s)
  | s => CommandEnds s

theorem reads_colon (s : Str) : LineReads (':' :: s) ↔
    ' ' ∈ s ∧ MaskEnds (s.takeWhile (fun c => c ≠ ' ')) ∧ CommandEnds (behindSpace s) := Iff.rfl

theorem takeTo_behind (found : stop ∈ s) :
    takeTo stop s = some (s.takeWhile (fun c => c ≠ stop),(s.dropWhile (fun c => c ≠ stop)).tail) := by
  obtain ⟨front,back,rfl,plain⟩ := List.eq_append_cons_of_mem found
  have goes : ∀ c ∈ front, decide (c ≠ stop) = true := by
    intro c member
    exact decide_eq_true (fun same => plain (same ▸ member))
  rw [takeTo_stop front back plain,List.takeWhile_append_of_pos goes,List.dropWhile_append_of_pos goes]
  simp

theorem takeTo_space (found : ' ' ∈ s) : takeTo ' ' s = some (s.takeWhile (fun c => c ≠ ' '),behindSpace s) := takeTo_behind found

theorem readPrefix_colon (netNick s : Str) : readPrefix netNick (':' :: s) =
    (takeTo ' ' s).bind fun parts => (parsePrefix netNick parts.1).bind fun pre => some (some pre,parts.2) := rfl

theorem parsePrefix_ends (netNick word : Str) : (parsePrefix netNick word).isSome ↔ MaskEnds word := by
  unfold parsePrefix MaskEnds
  by_cases mask : '!' ∈ word
  · obtain ⟨front,back,rfl,plain⟩ := List.eq_append_cons_of_mem mask
    have goes : ∀ c ∈ front, decide (c ≠ '!') = true := by
      intro c member
      exact decide_eq_true (fun same => plain (same ▸ member))
    rw [if_pos mask,takeTo_stop front back plain,List.dropWhile_append_of_pos goes]
    by_cases user : '@' ∈ back
    · simp [takeTo_behind user,user]
    · simp [takeTo_none user,user]
  · rw [if_neg mask]
    by_cases own : word = netNick
    · subst own
      simp [mask]
    · simp [own,mask]

theorem spaces_letter (letter : c ≠ ' ') (s : Str) : lastSpaces (c :: s) = lastSpaces s := by
  unfold lastSpaces
  rw [List.reverse_cons,List.takeWhile_append]
  split
  · rename_i full
    rw [full]
    simp [letter]
  · rfl

theorem spaces_bound (s : Str) : lastSpaces s ≤ s.length := by
  have bound := (List.takeWhile_prefix (fun c => decide (c = ' ')) (l := s.reverse)).length_le
  rwa [List.length_reverse] at bound

-- A space and the character behind it leave the count of the last spaces as it is, or add two to it.
theorem spaces_pair (d : Char) (s : Str) : lastSpaces (' ' :: d :: s) % 2 = lastSpaces s % 2 := by
  have bound := spaces_bound s
  by_cases space : d = ' '
  · subst space
    unfold lastSpaces
    rw [List.reverse_cons,List.reverse_cons,List.append_assoc,List.takeWhile_append]
    split
    · rename_i full
      rw [List.length_append,full]
      simp
    · rfl
  · rw [← spaces_letter space s]
    unfold lastSpaces
    rw [List.reverse_cons,List.takeWhile_append,if_neg]
    have fewer : lastSpaces (d :: s) < (d :: s).length := by
      rw [spaces_letter space,List.length_cons]
      omega
    rw [List.length_reverse]
    exact Nat.ne_of_lt fewer

theorem colon_first (last c : Char) (s : Str) : [' ',':'] <:+: last :: c :: s ↔ (last = ' ' ∧ c = ':') ∨ [' ',':'] <:+: c :: s := by
  rw [List.infix_cons_iff]
  simp [List.cons_prefix_cons,eq_comm]

-- The first loop stays in the line when the parameters come to an end.
theorem tokenize_ends (n : Nat) (s : Str) (short : s.length ≤ n) (plain : Plain s) (holds : Holds (t.getD .new) done w) :
    (tokenize true last s t).isSome ↔ ParamsEnd last s := by
  induction n generalizing s last t done w with
  | zero =>
      obtain rfl := List.eq_nil_of_length_eq_zero (by omega : s.length = 0)
      simp [tokenize,ParamsEnd,lastSpaces]
  | succ n ih =>
      cases s with
      | nil => simp [tokenize,ParamsEnd,lastSpaces]
      | cons c s =>
          simp only [List.length_cons] at short
          obtain ⟨carriage,feed⟩ := plain c (by simp)
          have later : Plain s := fun d member => plain d (by simp [member])
          by_cases colon : c = ':' ∧ last = ' '
          · obtain ⟨rfl,rfl⟩ := colon
            simp [tokenize,ParamsEnd,colon_first]
          · have going : ¬(c = '\n' ∨ c = '\r' ∨ (True ∧ c = ':' ∧ last = ' ')) := by
              rintro (same | same | ⟨-,same⟩)
              · exact feed same
              · exact carriage same
              · exact colon same
            have noColon : ¬(last = ' ' ∧ c = ':') := fun both => colon ⟨both.2,both.1⟩
            by_cases space : c = ' '
            · subst space
              obtain ⟨waiting,advanced,waits,-⟩ := advance_waits holds
              cases s with
              | nil =>
                  simp only [tokenize,advanced,Option.bind_eq_bind,Option.bind_some]
                  simp [ParamsEnd,lastSpaces,List.infix_cons_iff]
              | cons d s =>
                  obtain ⟨carriage,feed⟩ := later d (by simp)
                  by_cases ends : d = ':'
                  · subst ends
                    simp [tokenize,advanced,ParamsEnd,colon_first]
                  · obtain ⟨opened,opens,fresh,-⟩ := open_holds waits
                    obtain ⟨next,put,holds',-⟩ := put_holds fresh d
                    simp only [List.length_cons] at short
                    have rest := @ih (done ++ [w]) ([] ++ [d]) d (some next) s (by omega) (fun e member => later e (by simp [member])) holds'
                    simp only [tokenize,advanced,opens,put,Option.bind_eq_bind,Option.bind_some]
                    rw [ParamsEnd,colon_first,colon_first,spaces_pair]
                    simp only [ParamsEnd] at rest
                    simpa [carriage,feed,ends] using rest
            · obtain ⟨next,put,holds',-⟩ := put_holds holds c
              have rest := @ih done (w ++ [c]) c (some next) s (by omega) later holds'
              simp only [tokenize,space,put,Option.bind_eq_bind,Option.bind_some]
              rw [if_neg going,if_neg not_false,rest,ParamsEnd,ParamsEnd,colon_first,spaces_letter space]
              simp [noColon]

-- The second loop looks for the terminator after a space.
theorem rest_ends (s : Str) (plain : Plain s) : (tokenize false ' ' s none).isSome := by
  cases s with
  | nil => rfl
  | cons c s =>
      obtain ⟨next,found,read,-⟩ := tokenize_text (c :: s) (by simp) plain
      rw [read]
      rfl

-- What a loop leaves is the end of the text.
theorem tokenize_suffix (n : Nat) (s : Str) (short : s.length ≤ n) (read : tokenize middle last s t = some (t',rest)) : rest <:+ s := by
  induction n generalizing s last t with
  | zero =>
      obtain rfl := List.eq_nil_of_length_eq_zero (by omega : s.length = 0)
      cases read
      exact List.suffix_refl _
  | succ n ih =>
      cases s with
      | nil =>
          cases read
          exact List.suffix_refl _
      | cons c s =>
          simp only [List.length_cons] at short
          simp only [tokenize] at read
          split at read
          · cases read
            exact List.suffix_refl _
          · split at read
            · obtain ⟨moved,-,read⟩ := Option.bind_eq_some_iff.mp read
              cases s with
              | nil =>
                  simp only at read
                  split at read
                  · cases read
                  · cases read
                    exact List.nil_suffix
              | cons d s =>
                  simp only [List.length_cons] at short
                  simp only at read
                  split at read
                  · cases read
                    exact List.suffix_cons _ _
                  · obtain ⟨opened,-,read⟩ := Option.bind_eq_some_iff.mp read
                    obtain ⟨next,-,read⟩ := Option.bind_eq_some_iff.mp read
                    exact ((ih s (by omega) read).trans (List.suffix_cons d s)).trans (List.suffix_cons c _)
            · obtain ⟨next,-,read⟩ := Option.bind_eq_some_iff.mp read
              exact (ih s (by omega) read).trans (List.suffix_cons c s)

-- The command, the parameters and the trailing text, from behind the prefix.
def decodeRest (pre : Option IrcPrefix) (s : Str) : Option IrcData := do
  let (command,s) ← takeTo ' ' s
  let (params,s) ← tokenize true ' ' s none
  let (rest,_) ← tokenize false ' ' s.tail none
  some ⟨pre,command,params.map (·.slots),params.map (·.str),rest.map (·.slots),rest.map (·.str)⟩

theorem decode_rest (netNick line : Str) :
    decode netNick line = (readPrefix netNick line).bind fun parts => decodeRest parts.1 parts.2 := rfl

theorem rest_reads (pre : Option IrcPrefix) (s : Str) (plain : Plain s) : (decodeRest pre s).isSome ↔ CommandEnds s := by
  unfold CommandEnds decodeRest
  by_cases space : ' ' ∈ s
  · have behind : Plain (behindSpace s) := fun c member => plain c (List.dropWhile_subset _ (List.mem_of_mem_tail member))
    have ends : (tokenize true ' ' (behindSpace s) none).isSome ↔ ParamsEnd ' ' (behindSpace s) :=
      tokenize_ends _ (behindSpace s) (Nat.le_refl _) behind new_holds
    rw [takeTo_space space,← ends]
    simp only [Option.bind_eq_bind,Option.bind_some]
    cases read : tokenize true ' ' (behindSpace s) none with
    | none => simp
    | some params =>
        obtain ⟨params,left⟩ := params
        have suffix := tokenize_suffix _ _ (Nat.le_refl _) read
        have trailing := rest_ends left.tail (fun c member => behind c (suffix.subset (List.mem_of_mem_tail member)))
        obtain ⟨last,reads⟩ := Option.isSome_iff_exists.mp trailing
        simp [reads,space]
  · simp [takeTo_none space,space]

theorem decode_reads (netNick line : Str) (plain : Plain line) : (decode netNick line).isSome ↔ LineReads line := by
  rw [decode_rest]
  cases line with
  | nil => exact rest_reads none [] plain
  | cons c s =>
      by_cases colon : c = ':'
      · subst colon
        have later : Plain s := fun d member => plain d (by simp [member])
        rw [readPrefix_colon,reads_colon]
        by_cases space : ' ' ∈ s
        · have behind : Plain (behindSpace s) := fun c member => later c (List.dropWhile_subset _ (List.mem_of_mem_tail member))
          have ends := parsePrefix_ends netNick (s.takeWhile (fun c => c ≠ ' '))
          rw [takeTo_space space,Option.bind_some,← ends]
          cases parsed : parsePrefix netNick (s.takeWhile (fun c => c ≠ ' ')) with
          | none => simp
          | some pre =>
              have rest := rest_reads (some pre) (behindSpace s) behind
              simp only [Option.bind_some,rest]
              simp [space]
        · simp [takeTo_none space,space]
      · have none' : readPrefix netNick (c :: s) = some (none,c :: s) := readPrefix_plain netNick colon s
        have reads : LineReads (c :: s) ↔ CommandEnds (c :: s) := by
          unfold LineReads
          split
          · rename_i same
            exact absurd (List.cons.inj same).1 colon
          · rfl
        rw [none',reads]
        exact rest_reads none _ plain

-- parse_irc_line stays in its line and its allocations for exactly these lines.
theorem scan_inside (netNick : Str) (read : text b = some line) (plain : ∀ c ∈ line, c ≠ '\r' ∧ c ≠ '\n') :
    (scanLine netNick b).isSome ↔ LineReads line := by
  have same := scan_decodes netNick read
  rw [← decode_reads netNick line plain,← same,Option.isSome_map]

theorem two_spaces_read : (scanLine ['b'] (ofText ['J',' ','#','c',' ',' '])).isSome ∧ LineReads ['J',' ','#','c',' ',' '] := by
  have reads : (scanLine ['b'] (ofText ['J',' ','#','c',' ',' '])).isSome := by decide
  exact ⟨reads,(scan_inside ['b'] (text_ofText (by decide)) (by decide)).mp reads⟩

-- No parameter, one space at the end, and a mask without its host.
theorem short_lines_left : scanLine ['b'] (ofText ['P','I','N','G']) = none ∧ scanLine ['b'] (ofText ['J',' ','#','c',' ']) = none ∧
    scanLine ['b'] (ofText [':','n','!','u',' ','Q',' ',':','x']) = none := by
  decide

end Trollbot.IrcParse
