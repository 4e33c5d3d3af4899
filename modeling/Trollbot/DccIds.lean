import Trollbot.DccSessions

-- The ids of the sessions of one network, over any opens and removals.
namespace Trollbot.DccSessions
open Runs Links
open DccLogin (Setting)

-- A session opened by the bot, one accepted from its listener, and one taken out.
inductive Change where
  | chat (sock : Nat)
  | accept (sock : Nat)
  | remove (dcc : Nat)

-- irc_loop and parse_dcc_line only take out a session they have come to from net->dccs.
def change (st : Loop) : Change → Except Fault Loop
  | .chat sock => st.initiateDccChat sock
  | .accept sock => st.newDccConnection sock
  | .remove dcc => do
    if ← alive (search st.sessions dcc st.bound st.dccs) then st.release st.owner dcc else .ok st

def changeOn (st : Loop) (event : Change) : Option Loop := (change st event).toOption

def Loop.opened (g : Setting) (users : List User) : Loop := { Loop.start g users with place := .serving }

-- The place holds a session that has the id.
def Holds (h : Heap DccSession) (a : Nat) (id : Int) : Prop := ∃ node, read h a = some node ∧ node.item.id = id

-- INT_MAX
def idMax : Int := 2147483647

-- Every live session has an id of at least 1 that is an int, and no two have the same.
structure Distinct (st : Loop) : Prop where
  counted : ∀ a id, Holds st.sessions a id → 1 ≤ id ∧ id ≤ idMax
  apart : ∀ a b id, Holds st.sessions a id → Holds st.sessions b id → a = b

def Unique (st : Loop) (event : Change) : Prop := ∀ next, changeOn st event = some next → Distinct next

-- The session's id is the one after the greatest of the others.
def Follows (h : Heap DccSession) (a : Nat) : Prop :=
  ∃ b id, b ≠ a ∧ Holds h b id ∧ Holds h a (id + 1) ∧ ∀ c other, c ≠ a → Holds h c other → other ≤ id

-- The maximum counts every session but the last, and also that one if it is alone.
def Counts (h : Heap DccSession) (a : Nat) : Prop :=
  ∃ node, read h a = some node ∧ (node.next ≠ none ∨ ∀ b, (read h b).isSome → b = a)

-- No session is accepted, and one is only opened while the last one's id does not follow those of
-- the others and none that the maximum counts is INT_MAX.
def Numbered (st : Loop) : Change → Prop
  | .chat _ => (∀ a node, read st.sessions a = some node → node.next = none → ¬Follows st.sessions a) ∧
      ∀ a, Counts st.sessions a → ¬Holds st.sessions a idMax
  | .accept _ => False
  | .remove _ => True

theorem highest_in (others : List Int) (some' : others ≠ []) (last : Int) :
    highestId (others ++ [last]) ∈ others ∧ ∀ id ∈ others, id ≤ highestId (others ++ [last]) := by
  have greatest : ∀ (l : List Int) (start : Int), (l.foldl max start = start ∨ l.foldl max start ∈ l) ∧ start ≤ l.foldl max start ∧
      ∀ id ∈ l, id ≤ l.foldl max start := by
    intro l
    induction l with
    | nil => exact fun start => ⟨.inl rfl,Int.le_refl _,by simp⟩
    | cons id l ih =>
        intro start
        obtain ⟨which,above,rest⟩ := ih (max start id)
        refine ⟨?_,by simp only [List.foldl_cons]; omega,?_⟩
        · rcases which with same | member
          · rw [List.foldl_cons,same]
            rcases Int.le_total start id with less | more
            · exact .inr (by simp [Int.max_eq_right less])
            · exact .inl (Int.max_eq_left more)
          · exact .inr (List.mem_cons_of_mem _ member)
        · intro other member
          rcases List.mem_cons.mp member with rfl | member
          · simp only [List.foldl_cons]
            omega
          · exact rest other member
  obtain ⟨first,rest,rfl⟩ := List.exists_cons_of_ne_nil some'
  unfold highestId
  rw [List.dropLast_concat]
  obtain ⟨which,above,all⟩ := greatest (first :: rest) first
  refine ⟨?_,all⟩
  rcases which with same | member
  · simp only [List.cons_append,List.headD_cons,same,List.mem_cons,true_or]
  · exact member

section
variable {st next : Loop} {id : Int}

theorem items_first {items : List DccSession} (listed : (a :: row).mapM st.session = .ok items) :
    ∃ node more, read st.sessions a = some node ∧ row.mapM st.session = .ok more ∧ items = node.item :: more := by
  cases here : read st.sessions a with
  | none => simp [List.mapM_cons,Loop.session,here] at listed
  | some node =>
      have session : st.session a = .ok node.item := by simp [Loop.session,here]
      rw [List.mapM_cons,session] at listed
      cases rest : row.mapM st.session with
      | error fault =>
          rw [rest] at listed
          cases listed
      | ok more =>
          rw [rest] at listed
          cases listed
          exact ⟨node,more,rfl,rfl,rfl⟩

theorem items_parts {front back : List Nat} {items : List DccSession} (listed : (front ++ back).mapM st.session = .ok items) :
    ∃ one two, front.mapM st.session = .ok one ∧ back.mapM st.session = .ok two ∧ items = one ++ two := by
  rw [List.mapM_append] at listed
  cases begun : front.mapM st.session with
  | error fault =>
      rw [begun] at listed
      cases listed
  | ok one =>
      cases ended : back.mapM st.session with
      | error fault =>
          rw [begun,ended] at listed
          cases listed
      | ok two =>
          rw [begun,ended] at listed
          cases listed
          exact ⟨one,two,rfl,rfl,rfl⟩

theorem items_hold {row : List Nat} {items : List DccSession} (listed : row.mapM st.session = .ok items) :
    ∀ id, id ∈ items.map (·.id) ↔ ∃ a ∈ row, Holds st.sessions a id := by
  induction row generalizing items with
  | nil =>
      cases listed
      simp
  | cons a row ih =>
      obtain ⟨node,more,here,rest,rfl⟩ := items_first listed
      intro id
      have first : Holds st.sessions a id ↔ id = node.item.id := by simp [Holds,here,eq_comm]
      simp only [List.map_cons,List.mem_cons,ih rest,exists_eq_or_imp,first]

theorem items_holds {h h' : Heap DccSession} (same : (read h' a).map (·.item) = (read h a).map (·.item)) (id : Int) :
    Holds h' a id ↔ Holds h a id := by
  have from' : ∀ h : Heap DccSession, Holds h a id ↔ ∃ item, (read h a).map (·.item) = some item ∧ item.id = id := by
    intro h
    simp [Holds]
  rw [from',from',same]

-- One more session, with the given id.
structure Grows (st next : Loop) (row : List Nat) (made : Nat) (id : Int) : Prop where
  tracks : Tracks next (row ++ [made]) []
  serving : next.place = .serving
  fresh : read st.sessions made = none
  here : ∀ other, Holds next.sessions made other ↔ other = id
  others : ∀ a, a ≠ made → ∀ other, Holds next.sessions a other ↔ Holds st.sessions a other

theorem grows_distinct (grows : Grows st next row made id) (distinct : Distinct st) :
    Distinct next ↔ 1 ≤ id ∧ id ≤ idMax ∧ ∀ a, ¬Holds st.sessions a id := by
  constructor
  · intro after
    have bounds := after.counted made id ((grows.here id).mpr rfl)
    refine ⟨bounds.1,bounds.2,?_⟩
    intro a holds
    have other : a ≠ made := by
      rintro rfl
      obtain ⟨node,here,-⟩ := holds
      simp [grows.fresh] at here
    exact other (after.apart a made id ((grows.others a other id).mpr holds) ((grows.here id).mpr rfl))
  · rintro ⟨low,high,free⟩
    refine ⟨?_,?_⟩
    · intro a other holds
      by_cases new : a = made
      · subst new
        rw [grows.here] at holds
        subst holds
        exact ⟨low,high⟩
      · exact distinct.counted a other ((grows.others a new other).mp holds)
    · intro a b other first second
      by_cases newA : a = made
      · by_cases newB : b = made
        · rw [newA,newB]
        · subst newA
          rw [grows.here] at first
          subst first
          exact absurd ((grows.others b newB other).mp second) (free b)
      · have old := (grows.others a newA other).mp first
        by_cases newB : b = made
        · subst newB
          rw [grows.here] at second
          subst second
          exact absurd old (free a)
        · exact distinct.apart a b other old ((grows.others b newB other).mp second)

theorem alloc_holds (h : Heap DccSession) (x : DccSession) (id : Int) : Holds (alloc h x) h.length id ↔ id = x.id := by
  simp [Holds,read_alloc,eq_comm]

theorem alloc_others {h : Heap DccSession} (other : a ≠ h.length) (x : DccSession) (id : Int) : Holds (alloc h x) a id ↔ Holds h a id := by
  simp [Holds,read_alloc,other]

theorem fresh_end (h : Heap DccSession) : read h h.length = none := by
  simp [Links.read]

theorem first_grows (tracks : Tracks st [] []) (serving : st.place = .serving) (x : DccSession) :
    Grows st { st with sessions := alloc st.sessions x, dccs := if st.net = st.owner then some st.sessions.length else st.dccs }
      [] st.sessions.length x.id :=
  ⟨first_joins tracks serving x,serving,fresh_end _,alloc_holds _ x,fun _ other => alloc_others other x⟩

theorem last_grows (tracks : Tracks st (front ++ [z]) []) (serving : st.place = .serving) (x : DccSession) :
    ∃ sessions, append (alloc st.sessions x) z st.sessions.length = some sessions ∧
      Grows st { st with sessions := sessions } (front ++ [z]) st.sessions.length x.id := by
  obtain ⟨sessions,linked,grown⟩ := last_joins tracks x
  refine ⟨sessions,linked,grown,serving,fresh_end _,?_,?_⟩
  · intro id
    rw [items_holds (append_items linked _),alloc_holds]
  · intro a other id
    rw [items_holds (append_items linked _),alloc_others other]

theorem accept_grows (tracks : Tracks st row []) (serving : st.place = .serving) (sock : Nat) :
    ∃ next made, st.newDccConnection sock = .ok next ∧ Grows st next row made (-1) := by
  unfold Loop.newDccConnection
  rcases list_cases tracks serving with ⟨empty,rfl⟩ | ⟨here,front,z,row,first,-,rfl,walked,last⟩
  · simp only [empty]
    exact ⟨_,_,rfl,first_grows tracks serving _⟩
  · obtain ⟨sessions,linked,grown⟩ := last_grows tracks serving ⟨-1,some sock,none,.notReady,st.net⟩
    refine ⟨_,_,?_,grown⟩
    simp only [first,walked,last,linked,alive_some,ok_bind]

def Greatest (h : Heap DccSession) (row : List Nat) (id : Int) : Prop :=
  (∃ a ∈ row, Holds h a id) ∧ ∀ a ∈ row, ∀ other, Holds h a other → other ≤ id

theorem highest_greatest {items : List DccSession} (listed : (front ++ [z]).mapM st.session = .ok items) :
    Greatest st.sessions (if front = [] then [z] else front) (highestId (items.map (·.id))) := by
  obtain ⟨others,last,begun,ended,rfl⟩ := items_parts listed
  obtain ⟨node,more,here,nothing,rfl⟩ := items_first ended
  cases nothing
  rw [List.map_append]
  cases front with
  | nil =>
      cases begun
      rw [if_pos rfl]
      refine ⟨⟨z,by simp,node,here,rfl⟩,?_⟩
      intro a member other holds
      have same := (items_hold ended other).mpr ⟨a,member,holds⟩
      obtain rfl : other = node.item.id := by simpa using same
      exact Int.le_refl _
  | cons a rest =>
      obtain ⟨first,more,-,-,rfl⟩ := items_first begun
      obtain ⟨member,above⟩ := highest_in ((first.item :: more).map (·.id)) (by simp) node.item.id
      rw [if_neg (by simp)]
      refine ⟨(items_hold begun _).mp member,?_⟩
      intro b inside other holds
      exact above other ((items_hold begun other).mpr ⟨b,inside,holds⟩)

-- The first session gets 1. The last is left out of the maximum unless it is alone.
theorem chat_grows (tracks : Tracks st row []) (serving : st.place = .serving) (sock : Nat) :
    ∃ next made id, st.initiateDccChat sock = .ok next ∧ Grows st next row made id ∧
      ((row = [] ∧ id = 1) ∨ ∃ front z most, row = front ++ [z] ∧ id = most + 1 ∧
        Greatest st.sessions (if front = [] then [z] else front) most) := by
  have long := whole_length tracks.whole
  have enough : row.length < st.bound := by simp [Loop.bound] at long ⊢; omega
  unfold Loop.initiateDccChat
  rcases list_cases tracks serving with ⟨empty,rfl⟩ | ⟨here,front,z,walk,first,member,rfl,-,-⟩
  · refine ⟨_,_,1,?_,first_grows tracks serving ⟨1,some sock,none,.nonblockConnect,st.net⟩,.inl ⟨rfl,rfl⟩⟩
    simp only [empty]
  · have whole : Whole st.sessions (front ++ [z]) := List.append_nil (front ++ [z]) ▸ tracks.whole
    have back := rewind_first whole member enough
    have walked := forward_walks _ whole.1 enough
    obtain ⟨items,listed⟩ := items_read st (fun a inside => seg_member whole.1 inside)
    obtain ⟨top,head⟩ : ∃ top, (front ++ [z]).head? = some top := by cases front <;> simp
    rw [head] at back walked
    obtain ⟨sessions,linked,grown⟩ := last_grows tracks serving ⟨highestId (items.map (·.id)) + 1,some sock,none,.nonblockConnect,st.net⟩
    refine ⟨_,_,_,?_,grown,.inr ⟨front,z,_,rfl,rfl,highest_greatest listed⟩⟩
    have last : (front ++ [z]).getLast? = some z := by simp
    simp only [first,back,walked,listed,last,linked,alive_some,ok_bind]

theorem holds_same {h : Heap DccSession} {one two : Int} (first : Holds h a one) (second : Holds h a two) : one = two := by
  obtain ⟨node,here,rfl⟩ := first
  obtain ⟨other,there,rfl⟩ := second
  rw [here,Option.some.injEq] at there
  rw [there]

theorem counts_exact {h : Heap DccSession} (whole : Whole h (front ++ [z])) (a : Nat) :
    Counts h a ↔ a ∈ if front = [] then [z] else front := by
  have nodup := whole.2.1
  have last : z ∉ front := fun member => (List.nodup_append.mp nodup).2.2 z member z (by simp) rfl
  constructor
  · rintro ⟨node,here,counted⟩
    have member := whole.2.2 a (by simp [here])
    rcases counted with onward | alone
    · have other : a ≠ z := fun same => onward ((whole_ends whole here).mpr same)
      have early : a ∈ front := by simpa [other] using member
      rw [if_neg (List.ne_nil_of_mem early)]
      exact early
    · have only : front = [] := by
        apply List.eq_nil_iff_forall_not_mem.mpr
        intro b early
        have same := alone b (seg_member whole.1 (by simp [early]))
        have end' := alone z (seg_member whole.1 (by simp))
        exact last (by rwa [end',← same])
      subst only
      simpa using member
  · intro member
    by_cases only : front = []
    · subst only
      obtain rfl : a = z := by simpa using member
      obtain ⟨node,here⟩ := Option.isSome_iff_exists.mp (seg_member whole.1 (a := a) (by simp))
      refine ⟨node,here,.inr ?_⟩
      intro b live
      simpa using whole.2.2 b live
    · rw [if_neg only] at member
      obtain ⟨node,here⟩ := Option.isSome_iff_exists.mp (seg_member whole.1 (a := a) (by simp [member]))
      refine ⟨node,here,.inl ?_⟩
      intro ends
      exact last ((whole_ends whole here).mp ends ▸ member)

theorem follows_exact {h : Heap DccSession} (whole : Whole h (front ++ [z])) (greatest : Greatest h (if front = [] then [z] else front) most) :
    (∀ a node, read h a = some node → node.next = none → ¬Follows h a) ↔ ¬Holds h z (most + 1) := by
  obtain ⟨node,here⟩ := Option.isSome_iff_exists.mp (seg_member whole.1 (a := z) (by simp))
  have live : ∀ a id, Holds h a id → a ∈ front ++ [z] := by
    rintro a id ⟨node,here,-⟩
    exact whole.2.2 a (by simp [here])
  obtain ⟨⟨best,inside,holds⟩,above⟩ := greatest
  have only : (∀ a node, read h a = some node → node.next = none → ¬Follows h a) ↔ ¬Follows h z := by
    constructor
    · intro none'
      exact none' z node here ((whole_ends whole here).mpr rfl)
    · intro last a other there ends
      rwa [(whole_ends whole there).mp ends]
  rw [only]
  apply not_congr
  constructor
  · rintro ⟨b,id,other,held,next,below⟩
    have early : b ∈ front := by simpa [other] using live b id held
    rw [if_neg (List.ne_nil_of_mem early)] at inside above
    have apart : best ≠ z := fun same => (List.nodup_append.mp whole.2.1).2.2 best inside z (by simp) same
    obtain rfl := Int.le_antisymm (above b early id held) (below best most apart holds)
    exact next
  · intro next
    by_cases alone : front = []
    · subst alone
      obtain rfl : best = z := by simpa using inside
      have same := holds_same holds next
      omega
    · rw [if_neg alone] at inside above
      have apart : best ≠ z := fun same => (List.nodup_append.mp whole.2.1).2.2 best inside z (by simp) same
      refine ⟨best,most,apart,holds,next,?_⟩
      intro c other differs held
      exact above c (by simpa [differs] using live c other held) other held

theorem chat_fresh (tracks : Tracks st row []) (distinct : Distinct st) (shape : (row = [] ∧ id = 1) ∨
      ∃ front z most, row = front ++ [z] ∧ id = most + 1 ∧ Greatest st.sessions (if front = [] then [z] else front) most) (sock : Nat) :
    (1 ≤ id ∧ id ≤ idMax ∧ ∀ a, ¬Holds st.sessions a id) ↔ Numbered st (.chat sock) := by
  have whole := tracks.whole
  rw [List.append_nil] at whole
  rcases shape with ⟨rfl,rfl⟩ | ⟨front,z,most,rfl,rfl,greatest⟩
  · have nobody : ∀ a node, read st.sessions a ≠ some node := by
      intro a node here
      simpa using whole.2.2 a (by simp [here])
    refine iff_of_true ⟨Int.le_refl 1,by decide,?_⟩ ⟨?_,?_⟩
    · rintro a ⟨node,here,-⟩
      exact nobody a node here
    · intro a node here
      exact absurd here (nobody a node)
    · rintro a - ⟨node,here,-⟩
      exact nobody a node here
  · have follows := follows_exact whole greatest
    obtain ⟨⟨best,inside,holds⟩,above⟩ := greatest
    have bounds := distinct.counted best most holds
    constructor
    · rintro ⟨-,high,free⟩
      refine ⟨follows.mpr (free z),?_⟩
      intro a counts held
      have below := above a ((counts_exact whole a).mp counts) idMax held
      omega
    · rintro ⟨last,greatest⟩
      have other : most ≠ idMax := fun same => greatest best ((counts_exact whole best).mpr inside) (same ▸ holds)
      refine ⟨by omega,by omega,?_⟩
      intro a held
      obtain ⟨node,here,-⟩ := id held
      have member := whole.2.2 a (by simp [here])
      rcases List.mem_append.mp member with early | ending
      · have low := above a (by rw [if_neg (List.ne_nil_of_mem early)]; exact early) (most + 1) held
        omega
      · obtain rfl := List.mem_singleton.mp ending
        exact follows.mp last held

-- A removal leaves the other sessions with their ids.
theorem remove_keeps (tracks : Tracks st row []) (serving : st.place = .serving) (dcc : Nat) :
    ∃ next rest, change st (.remove dcc) = .ok next ∧ Tracks next rest [] ∧ next.place = .serving ∧
      ∀ a other, Holds next.sessions a other → Holds st.sessions a other := by
  have whole := tracks.whole
  rw [List.append_nil] at whole
  have long := whole_length whole
  rcases tracks.list with ⟨empty,-⟩ | ⟨first,list,member⟩
  · refine ⟨st,row,?_,tracks,serving,fun _ _ holds => holds⟩
    simp [change,empty,search,Loop.bound]
  · obtain ⟨front,back,rfl⟩ := List.append_of_mem (by simpa using member : first ∈ row)
    have rear := ((seg_append front (first :: back)).mp whole.1).2
    have enough : (first :: back).length < st.bound := by simp [Loop.bound] at long ⊢; omega
    by_cases inside : dcc ∈ first :: back
    · obtain ⟨middle,post,split⟩ := List.append_of_mem inside
      have found : search st.sessions dcc st.bound (some first) = some true := by
        rw [split] at rear enough
        have reached := search_finds st.bound rear (by simp at enough; omega)
        rwa [← split] at reached
      rw [split,← List.append_assoc] at whole
      obtain ⟨node,bare,sessions,here,prev,onward,unlinked,freed,rest⟩ := whole_remove whole
      refine ⟨{ st with sessions := sessions, dccs := node.prev.or node.next },front ++ middle ++ post,?_,?_,serving,?_⟩
      · simp only [change,list,found,alive_some,ok_bind,if_true]
        simp only [Loop.bound] at found
        simp [Loop.release,Loop.dccsOf,list,dccListDel,found,here,unlinked,freed]
      · refine ⟨by simpa using rest,tracks.here,?_,tracks.serves⟩
        simp only [prev,onward]
        rcases List.eq_nil_or_concat (front ++ middle) with none' | ⟨early,z,some'⟩
        · rw [none']
          cases post with
          | nil => exact .inl ⟨rfl,rfl⟩
          | cons q more => exact .inr ⟨q,rfl,by simp⟩
        · rw [some']
          exact .inr ⟨z,by simp,by simp⟩
      · rintro a other ⟨left,there,same⟩
        have apart : a ≠ dcc := by
          rintro rfl
          simp [read_free freed] at there
        rw [read_free freed,if_neg apart] at there
        exact (items_holds (unlink_items unlinked a) other).mp ⟨left,there,same⟩
    · have missed : search st.sessions dcc st.bound (some first) = some false := search_misses st.bound rear inside enough
      refine ⟨st,_,?_,tracks,serving,fun _ _ holds => holds⟩
      simp [change,list,missed]

-- What a change does to the list, and when it keeps the ids apart.
theorem change_outcome (tracks : Tracks st row []) (serving : st.place = .serving) (distinct : Distinct st) (event : Change) :
    ∃ next rest, change st event = .ok next ∧ Tracks next rest [] ∧ next.place = .serving ∧ (Distinct next ↔ Numbered st event) := by
  cases event with
  | chat sock =>
      obtain ⟨next,made,id,done,grows,shape⟩ := chat_grows tracks serving sock
      refine ⟨next,_,done,grows.tracks,grows.serving,?_⟩
      rw [grows_distinct grows distinct]
      exact chat_fresh tracks distinct shape sock
  | accept sock =>
      obtain ⟨next,made,done,grows⟩ := accept_grows tracks serving sock
      refine ⟨next,_,done,grows.tracks,grows.serving,?_⟩
      rw [grows_distinct grows distinct]
      exact iff_of_false (fun bounds => absurd bounds.1 (by decide)) (fun never => never)
  | remove dcc =>
      obtain ⟨next,rest,done,keeps,place,old⟩ := remove_keeps tracks serving dcc
      refine ⟨next,rest,done,keeps,place,iff_of_true ⟨?_,?_⟩ trivial⟩
      · intro a id holds
        exact distinct.counted a id (old a id holds)
      · intro a b id first second
        exact distinct.apart a b id (old a id first) (old b id second)

def Sound (st : Loop) : Prop := (∃ row, Tracks st row []) ∧ st.place = .serving ∧ Distinct st

theorem unique_numbered (event : Change) (sound : Sound st) : Unique st event ↔ Numbered st event := by
  obtain ⟨⟨row,tracks⟩,serving,distinct⟩ := sound
  obtain ⟨next,rest,done,-,-,exact'⟩ := change_outcome tracks serving distinct event
  rw [← exact']
  simp [Unique,changeOn,done,Except.toOption]

theorem change_sound (event : Change) (sound : Sound st) (unique : Unique st event) (taken : changeOn st event = some next) : Sound next := by
  obtain ⟨⟨row,tracks⟩,serving,distinct⟩ := sound
  obtain ⟨after,rest,done,keeps,place,-⟩ := change_outcome tracks serving distinct event
  obtain rfl : after = next := by simpa [changeOn,done,Except.toOption] using taken
  exact ⟨⟨rest,keeps⟩,place,unique after taken⟩

theorem opened_sound (g : Setting) (users : List User) : Sound (.opened g users) := by
  have nothing : ∀ a, read (Loop.opened g users).sessions a = none := by
    intro a
    simp [Loop.opened,Loop.start,Links.read]
  refine ⟨⟨[],⟨trivial,List.nodup_nil,?_⟩,rfl,.inl ⟨rfl,rfl⟩,fun _ => rfl⟩,rfl,?_,?_⟩
  · intro a live
    simp [nothing] at live
  · rintro a id ⟨node,here,-⟩
    simp [nothing] at here
  · rintro a b id ⟨node,here,-⟩
    simp [nothing] at here

end

theorem ids_unique (g : Setting) (users : List User) (events : List Change) :
    Meets changeOn Unique (.opened g users) events ↔ Meets changeOn Numbered (.opened g users) events :=
  meets_exact Sound (fun _ event sound => unique_numbered event sound)
    (fun _ event _ sound unique taken => change_sound event sound unique taken) (opened_sound g users)

def idsOf (st : Loop) : List (Option Int) := st.sessions.map (fun place => place.map (fun node => node.item.id))

theorem idsOf_holds {st : Loop} {id : Int} (listed : (idsOf st)[a]? = some (some id)) : Holds st.sessions a id := by
  obtain ⟨place,here,same⟩ := Option.map_eq_some_iff.mp (List.getElem?_map.symm.trans listed)
  obtain ⟨node,rfl,item⟩ := Option.map_eq_some_iff.mp same
  exact ⟨node,by simp [Links.read,here],item⟩

-- The bot opens three sessions one after the other.
theorem third_shares : ¬∀ (g : Setting) (users : List User) (events : List Change),
    Meets changeOn Unique (.opened g users) events := by
  intro claim
  have ids : ((run changeOn (.opened bare []) [.chat 3,.chat 4]).bind (fun mid => changeOn mid (.chat 5))).map idsOf =
      some [some 1,some 2,some 2] := by decide +kernel
  obtain ⟨last,ran,listed⟩ := Option.map_eq_some_iff.mp ids
  obtain ⟨mid,before,taken⟩ := Option.bind_eq_some_iff.mp ran
  have distinct := meets_last (claim bare [] ([.chat 3,.chat 4] ++ [.chat 5])) before last taken
  have second : Holds last.sessions 1 2 := idsOf_holds (by rw [listed]; rfl)
  have third : Holds last.sessions 2 2 := idsOf_holds (by rw [listed]; rfl)
  have same := distinct.apart 1 2 2 second third
  exact absurd same (by decide)

end Trollbot.DccSessions
