import Trollbot.Channel
import Trollbot.DccSessions
import Trollbot.Users

-- The deletion that the lists of users on a channel, bans, user records, triggers and sessions share,
-- on the linked records themselves.
namespace Trollbot.ListDel
open Links

section
variable {α : Type}

-- while (tmp == del && link != NULL) tmp = link;
def leave (h : Heap α) (del : Nat) (link : Node α → Option Nat) : Nat → Nat → Option Nat
  | 0,_ => none
  | fuel+1,tmp =>
    if tmp = del then do
      let node ← read h tmp
      match link node with
      | none => some tmp
      | some other => leave h del link fuel other
    else some tmp

-- None is a crash, or a loop that does not end. Where nothing is deleted there is at most a log call
-- that comes back.
def listDel (h : Heap α) (list : Option Nat) (del : Nat) : Option (Heap α × Option Nat) :=
  match list with
  | none => some (h,none)
  | some first => do
    if ← search h del (h.length + 1) (some first) then do
      let h ← unlink h del
      let tmp ← leave h del Node.prev (h.length + 1) del
      let tmp ← leave h del Node.next (h.length + 1) tmp
      some (h,if tmp = del then none else some tmp)
    else some (h,list)

end

def channelUserDel : Heap Irc.ChannelUser → Option Nat → Nat → Option (Heap Irc.ChannelUser × Option Nat) := listDel
def channelBanDel : Heap Irc.ChannelBan → Option Nat → Nat → Option (Heap Irc.ChannelBan × Option Nat) := listDel
def userListDel : Heap User → Option Nat → Nat → Option (Heap User × Option Nat) := listDel
def triggerListDel : Heap (Trigger Irc.Handler) → Option Nat → Nat → Option (Heap (Trigger Irc.Handler) × Option Nat) := listDel

inductive Store where
  | channelUsers
  | bans
  | users
  | triggers
  | sessions

def Store.Item : Store → Type
  | .channelUsers => Irc.ChannelUser
  | .bans => Irc.ChannelBan
  | .users => User
  | .triggers => Trigger Irc.Handler
  | .sessions => DccSessions.DccSession

def Store.del : (store : Store) → Heap store.Item → Option Nat → Nat → Option (Heap store.Item × Option Nat)
  | .channelUsers => channelUserDel
  | .bans => channelBanDel
  | .users => userListDel
  | .triggers => triggerListDel
  | .sessions => fun h list del => (DccSessions.dccListDel h list del).toOption

section
variable {α : Type} {h : Heap α}

-- A list in order, each record once, with both its links.
def IsList (h : Heap α) (l : List Nat) : Prop := Seg h none l none ∧ l.Nodup

-- The deletion gives the first record of a list of all the others, in their order and as they were.
def RemovesOne (del : Heap α → Option Nat → Nat → Option (Heap α × Option Nat)) (h : Heap α) (l : List Nat) (d : Nat) : Prop :=
  ∃ rest list, del h l.head? d = some (rest,list) ∧ IsList rest (l.erase d) ∧ list = (l.erase d).head? ∧
    ∀ a, (read rest a).map (·.item) = (read h a).map (·.item)

theorem leave_stays (here : read h del = some node) (none' : link node = none) : leave h del link (fuel + 1) del = some del := by
  simp [leave,here,none']

theorem leave_goes (here : read h del = some node) (some' : link node = some other) (apart : other ≠ del) (enough : 0 < fuel) :
    leave h del link (fuel + 1) del = some other := by
  cases fuel with
  | zero => cases enough
  | succ fuel => simp [leave,here,some',apart]

theorem leave_left (apart : other ≠ del) : leave h del link (fuel + 1) other = some other := by
  simp [leave,apart]

-- The pointer goes to the record before the deleted one, and to the one after it only where there is
-- none before.
theorem listDel_unlinks {pre post : List Nat} (seg : Seg h none (pre ++ del :: post) none)
    (nodup : (pre ++ del :: post).Nodup) (found : search h del (h.length + 1) (some first) = some true) :
    ∃ rest, unlink h del = some rest ∧ listDel h (some first) del = some (rest,pre.getLast?.or post.head?) ∧
      IsList rest (pre ++ post) ∧ ∀ a, (read rest a).map (·.item) = (read h a).map (·.item) := by
  obtain ⟨node,rest,-,prev,next,unlinked,here,linked,items⟩ := seg_unlink seg nodup
  obtain ⟨front,both,split⟩ := List.nodup_append.mp nodup
  obtain ⟨alone,rear⟩ := List.nodup_cons.mp both
  have others : (pre ++ post).Nodup :=
    List.nodup_append.mpr ⟨front,rear,fun a before b after => split a before b (by simp [after])⟩
  have some' : 0 < rest.length := by
    have := read_inside here
    omega
  refine ⟨rest,unlinked,?_,⟨linked,others⟩,items⟩
  simp only [listDel,found,unlinked,Option.bind_eq_bind,Option.bind_some,if_true]
  cases before : pre.getLast? with
  | some p =>
      have apart : p ≠ del := split p (List.mem_of_getLast? before) del (by simp)
      rw [leave_goes here (prev.trans before) apart some',Option.bind_some,leave_left apart]
      simp [apart]
  | none =>
      rw [leave_stays here (prev.trans before),Option.bind_some]
      cases after : post.head? with
      | some n =>
          have apart : n ≠ del := ne_of_mem_of_not_mem (List.mem_of_head? after) alone
          rw [leave_goes here (next.trans after) apart some']
          simp [apart]
      | none =>
          rw [leave_stays here (next.trans after)]
          simp

theorem search_from_first {pre post : List Nat} (list : IsList h (pre ++ del :: post)) :
    ∃ first, (pre ++ del :: post).head? = some first ∧ search h del (h.length + 1) (some first) = some true := by
  have short := seg_length list.1 list.2
  have found := search_finds (h.length + 1) list.1 (by simp at short; omega)
  cases head : (pre ++ del :: post).head? with
  | none => simp at head
  | some first => exact ⟨first,rfl,by rw [← head]; exact found⟩

-- The other way of choosing the pointer gives the same one.
theorem dccListDel_same {h : Heap DccSessions.DccSession} {pre post : List Nat} (list : IsList h (pre ++ del :: post))
    (found : search h del (h.length + 1) (some first) = some true) :
    (DccSessions.dccListDel h (some first) del).toOption = listDel h (some first) del := by
  obtain ⟨node,bare,here,prev,next,unlinked,-,-,-⟩ := seg_unlink list.1 list.2
  obtain ⟨rest,taken,done,-,-⟩ := listDel_unlinks list.1 list.2 found
  obtain rfl : bare = rest := Option.some.inj (unlinked.symm.trans taken)
  rw [done]
  simp [DccSessions.dccListDel,found,here,unlinked,prev,next,Except.toOption]

theorem dccListDel_first {h : Heap DccSessions.DccSession} {pre post : List Nat} (list : IsList h (pre ++ del :: post)) :
    (DccSessions.dccListDel h (pre ++ del :: post).head? del).toOption = listDel h (pre ++ del :: post).head? del := by
  obtain ⟨first,head,found⟩ := search_from_first list
  rw [head]
  exact dccListDel_same list found

-- Both ends of a list tell whether the record before another one is the first.
theorem getLast_first {pre post : List Nat} (nodup : (pre ++ post).Nodup) :
    pre.getLast?.or post.head? = (pre ++ post).head? ↔ pre.length ≤ 1 := by
  match pre with
  | [] => simp
  | [p] => simp
  | p :: q :: rest =>
      have apart : p ∉ q :: rest := (List.nodup_cons.mp (List.nodup_append.mp nodup).1).1
      have last : (p :: q :: rest).getLast? = some ((q :: rest).getLast (by simp)) := by
        rw [List.getLast?_eq_some_getLast (by simp)]
        rfl
      rw [last]
      constructor
      · intro same
        have equal : (q :: rest).getLast (by simp) = p := by simpa using same
        exact absurd (equal ▸ List.getLast_mem (by simp)) apart
      · intro short
        simp at short

theorem listDel_exact {l : List Nat} (list : IsList h l) (member : d ∈ l) :
    RemovesOne listDel h l d ↔ l.idxOf d ≤ 1 := by
  obtain ⟨pre,post,rfl,fresh⟩ := List.eq_append_cons_of_mem member
  obtain ⟨first,head,found⟩ := search_from_first list
  obtain ⟨rest,-,done,others,items⟩ := listDel_unlinks list.1 list.2 found
  have left : (pre ++ d :: post).erase d = pre ++ post := by
    rw [List.erase_append_right _ fresh,List.erase_cons_head]
  have place : (pre ++ d :: post).idxOf d = pre.length := by
    rw [List.idxOf_append_of_notMem fresh,List.idxOf_cons_self,Nat.add_zero]
  rw [place,RemovesOne,left,head,done,← getLast_first others.2]
  constructor
  · rintro ⟨_,_,same,-,first,-⟩
    cases same
    exact first
  · intro first
    exact ⟨rest,_,rfl,others,first,items⟩

-- A chain on the heap, by its addresses: what is behind the pointer is part of the list.
def Held (h : Heap α) (c : Chain Nat) : Prop := IsList h c.inOrder

theorem held_parts {c : Chain Nat} (held : Held h c) (here : c.items[place]? = some del) :
    IsList h ((c.behind.reverse ++ c.items.take place) ++ del :: c.items.drop (place + 1)) ∧
      ∃ first, c.items.head? = some first ∧ search h del (h.length + 1) (some first) = some true := by
  have whole : c.items = c.items.take place ++ del :: c.items.drop (place + 1) := by
    obtain ⟨inside,rfl⟩ := List.getElem?_eq_some_iff.mp here
    rw [List.getElem_cons_drop,List.take_append_drop]
  have parts : c.inOrder = (c.behind.reverse ++ c.items.take place) ++ del :: c.items.drop (place + 1) := by
    rw [List.append_assoc,← whole,Chain.inOrder]
  have short := seg_length held.1 held.2
  have front := ((seg_append c.behind.reverse c.items).mp held.1).2
  have found : search h del (h.length + 1) c.items.head? = some true := by
    rw [whole] at front ⊢
    refine search_finds (h.length + 1) front ?_
    have inside := (List.getElem?_eq_some_iff.mp here).1
    simp only [Chain.inOrder,List.length_append,List.length_reverse] at short
    rw [List.length_take]
    omega
  refine ⟨by rw [← parts]; exact held,?_⟩
  cases head : c.items.head? with
  | none => simp [List.head?_eq_none_iff.mp head] at here
  | some first => exact ⟨first,rfl,by rw [← head]; exact found⟩

-- The deletion from a chain is what the code does on the heap, wherever the pointer is.
theorem listDel_chain {c : Chain Nat} (held : Held h c) (here : c.items[place]? = some del) :
    ∃ rest, listDel h c.items.head? del = some (rest,(c.del place).items.head?) ∧ Held rest (c.del place) := by
  obtain ⟨list,first,head,found⟩ := held_parts held here
  obtain ⟨rest,-,done,others,-⟩ := listDel_unlinks list.1 list.2 found
  obtain ⟨order,pointer⟩ := Chain.del_inOrder (List.getElem?_eq_some_iff.mp here).1
  rw [head,done,pointer]
  exact ⟨rest,rfl,by rw [Held,order]; exact others⟩

theorem dccListDel_chain {h : Heap DccSessions.DccSession} {c : Chain Nat} (held : Held h c) (here : c.items[place]? = some del) :
    ∃ rest, DccSessions.dccListDel h c.items.head? del = .ok (rest,(c.del place).items.head?) ∧ Held rest (c.del place) := by
  obtain ⟨list,first,head,found⟩ := held_parts held here
  obtain ⟨rest,done,others⟩ := listDel_chain held here
  have same := dccListDel_same list found
  rw [← head,done] at same
  refine ⟨rest,?_,others⟩
  cases result : DccSessions.dccListDel h c.items.head? del with
  | error fault =>
      rw [result] at same
      cases same
  | ok pair =>
      rw [result] at same
      exact congrArg _ (Option.some.inj same)

end

-- The five deletions, of any record of any list. The pointer they return is the first one exactly
-- where at most one record was before the deleted one.
theorem deletion_removes_one (store : Store) (h : Heap store.Item) (l : List Nat) (d : Nat)
    (list : IsList h l) (member : d ∈ l) : RemovesOne store.del h l d ↔ l.idxOf d ≤ 1 := by
  cases store with
  | channelUsers => exact listDel_exact list member
  | bans => exact listDel_exact list member
  | users => exact listDel_exact list member
  | triggers => exact listDel_exact list member
  | sessions =>
      obtain ⟨pre,post,rfl⟩ := List.append_of_mem member
      rw [← listDel_exact list member,RemovesOne,RemovesOne]
      simp only [Store.del,dccListDel_first list]
      exact Iff.rfl

-- Three bans in a row.
def threeBans : Heap Irc.ChannelBan :=
  [some ⟨none,some 1,⟨none,some "a".toList,none,none⟩⟩,some ⟨some 0,some 2,⟨none,some "b".toList,none,none⟩⟩,
    some ⟨some 1,none,⟨none,some "c".toList,none,none⟩⟩]

theorem threeBans_list : IsList threeBans [0,1,2] :=
  ⟨⟨_,rfl,rfl,rfl,_,rfl,rfl,rfl,_,rfl,rfl,rfl,trivial⟩,by decide⟩

theorem second_ban_removed : RemovesOne (Store.del .bans) threeBans [0,1,2] 1 :=
  (deletion_removes_one .bans threeBans [0,1,2] 1 threeBans_list (by decide)).mpr (by decide)

-- Without the third one the pointer is at the second, and the first is lost.
theorem third_ban_loses_first : ¬∀ l d, IsList threeBans l → d ∈ l → RemovesOne (Store.del .bans) threeBans l d := by
  intro all
  have short := (listDel_exact threeBans_list (by decide)).mp (all [0,1,2] 2 threeBans_list (by decide))
  revert short
  decide

end Trollbot.ListDel
