import Trollbot.Foundation.Disposal
import Trollbot.Tconfig

-- The walk that frees a tree of blocks.
namespace Trollbot.Tconfig
open Linked Machine

inductive Freed where
  | key (block : Nat)
  | value (block : Nat)
  | block (block : Nat)
deriving DecidableEq

-- At the loop over the tree, at the loop behind a last sibling, and at the loop back over siblings.
inductive FreePlace where
  | down
  | last
  | back
deriving DecidableEq

structure FreeState where
  place : FreePlace
  heap : Heap Entry
  tcfg : Option Nat
  freed : List Freed
deriving DecidableEq

abbrev FreeOutcome := Outcome FreeState (Heap Entry × List Freed)

-- A field of a freed block is not there any more.
def FreeState.look (st : FreeState) (p : Nat) (go : Node Entry → FreeOutcome) : FreeOutcome :=
  match cell st.heap p with
  | none => .fault
  | some n => go n

def FreeState.texts (st : FreeState) (p : Nat) : List Freed := st.freed ++ [.key p,.value p]

-- A null pointer is freed without effect, a freed block not again.
def FreeState.free (st : FreeState) (block : Option Nat) : FreeOutcome :=
  match block with
  | none => .next st
  | some p =>
    match dispose st.heap p with
    | none => .fault
    | some heap => .next { st with heap := heap,freed := st.freed ++ [.block p] }

def freeDown (st : FreeState) : FreeOutcome :=
  match st.tcfg with
  | none => .done (st.heap,st.freed)
  | some p => st.look p fun n =>
    match n.child with
    | some child => .next { st with tcfg := some child }
    | none =>
      match n.next with
      | some next => .next { st with tcfg := some next }
      | none => .next { st with place := .last }

-- Behind the loop tcfg is dereferenced.
def freeLast (st : FreeState) : FreeOutcome :=
  match st.tcfg with
  | none => .fault
  | some p => st.look p fun n =>
    match n.next with
    | none => .next { st with place := .back }
    | some next => .next { st with place := .down,tcfg := some next }

-- A block without a parent goes and its previous sibling is next; a first child goes through its
-- parent's child link.
def freeBack (st : FreeState) : FreeOutcome :=
  match st.tcfg with
  | none => .done (st.heap,st.freed)
  | some p => st.look p fun n =>
    match n.parent with
    | none => { st with tcfg := n.prev,freed := st.texts p }.free (some p)
    | some parent =>
      { st with place := .last,tcfg := some parent,freed := st.texts p }.look parent fun owner =>
        { st with place := .last,tcfg := some parent,freed := st.texts p }.free owner.child

def freeTconfig (st : FreeState) : FreeOutcome :=
  match st.place with
  | .down => freeDown st
  | .last => freeLast st
  | .back => freeBack st

def FreeState.start (h : Heap Entry) (tcfg : Option Nat) : FreeState := ⟨.down,h,tcfg,[]⟩

def freedBlocks (order : List Nat) : List Freed := order.flatMap (fun p => [.key p,.value p,.block p])

-- The state when the blocks of `order` are gone.
def FreeState.past (place : FreePlace) (h : Heap Entry) (tcfg : Option Nat) (freed : List Freed) (order : List Nat) : FreeState :=
  ⟨place,disposed h order,tcfg,freed ++ freedBlocks order⟩

section
variable {h : Heap Entry} {order : List Nat} {freed : List Freed} {p : Nat}

theorem back_sibling (here : cell h p = some ⟨label,prev,next,none,child⟩) (kept : p ∉ order) :
    freeTconfig (.past .back h (some p) freed order) = .next (.past .back h prev freed (order ++ [p])) := by
  rw [← cell_kept kept] at here
  have gone := dispose_live here
  simp [freeTconfig,freeBack,FreeState.past,FreeState.look,FreeState.free,FreeState.texts,here,gone,freedBlocks]

theorem back_child (here : cell h c = some ⟨label,prev,next,some p,child⟩) (kept : c ∉ order)
    (owner : cell h p = some ⟨entry,prior,onward,upper,some c⟩) (keptOwner : p ∉ order) :
    freeTconfig (.past .back h (some c) freed order) = .next (.past .last h (some p) freed (order ++ [c])) := by
  rw [← cell_kept kept] at here
  rw [← cell_kept keptOwner] at owner
  have gone := dispose_live here
  simp [freeTconfig,freeBack,FreeState.past,FreeState.look,FreeState.free,FreeState.texts,here,owner,gone,freedBlocks]

theorem down_child (here : cell h p = some ⟨label,prev,next,parent,some c⟩) (kept : p ∉ order) :
    freeTconfig (.past .down h (some p) freed order) = .next (.past .down h (some c) freed order) := by
  rw [← cell_kept kept] at here
  simp [freeTconfig,freeDown,FreeState.past,FreeState.look,here]

-- A block is left for its next sibling, or for the way back, when it has no children or they are gone.
theorem left_next (here : cell h p = some ⟨label,prev,some q,parent,child⟩) (kept : p ∉ order)
    (done : spot = .last ∨ spot = .down ∧ child = none) :
    freeTconfig (.past spot h (some p) freed order) = .next (.past .down h (some q) freed order) := by
  rw [← cell_kept kept] at here
  rcases done with rfl | ⟨rfl,rfl⟩
  · simp [freeTconfig,freeLast,FreeState.past,FreeState.look,here]
  · simp [freeTconfig,freeDown,FreeState.past,FreeState.look,here]

theorem left_back (here : cell h p = some ⟨label,prev,none,parent,child⟩) (kept : p ∉ order)
    (done : spot = .last ∨ spot = .down ∧ child = none) :
    Reaches freeTconfig (.past spot h (some p) freed order) (.past .back h (some p) freed order) := by
  rw [← cell_kept kept] at here
  have back : freeTconfig (.past .last h (some p) freed order) = .next (.past .back h (some p) freed order) := by
    simp [freeTconfig,freeLast,FreeState.past,FreeState.look,here]
  rcases done with rfl | ⟨rfl,rfl⟩
  · exact .one back
  · have last : freeTconfig (.past .down h (some p) freed order) = .next (.past .last h (some p) freed order) := by
      simp [freeTconfig,freeDown,FreeState.past,FreeState.look,here]
    exact .head last (.one back)

end

-- From the first of some siblings the walk comes back to it when all that is below it and after it
-- is gone.
theorem row_freed {a : Placed Entry} (rep : Rep h prev parent none a) (separate : Separate a) (start : head a = some p)
    (freed : List Freed) (order : List Nat) (apart : ∀ q ∈ addresses a, q ∉ order) :
    ∃ others, bottomUp a = others ++ [p] ∧
      Reaches freeTconfig (.past .down h (some p) freed order) (.past .back h (some p) freed (order ++ others)) := by
  induction a generalizing prev parent p order with
  | nil => cases start
  | cons label children rest ihChildren ihRest =>
      obtain ⟨q,label⟩ := label
      obtain rfl : q = p := by simpa using start
      obtain ⟨here,below,after⟩ := rep
      rw [Option.or_none] at here
      simp only [Separate,addresses_cons,List.nodup_cons,List.mem_append,not_or,List.nodup_append] at separate
      obtain ⟨⟨notBelow,notAfter⟩,nodupBelow,nodupAfter,split⟩ := separate
      have live : q ∉ order := apart q (by simp)
      have childrenGone : ∃ spot, (spot = .last ∨ spot = .down ∧ head children = none) ∧
          Reaches freeTconfig (.past .down h (some q) freed order) (.past spot h (some q) freed (order ++ bottomUp children)) := by
        cases first : head children with
        | none =>
            obtain rfl := head_none first
            exact ⟨.down,.inr ⟨rfl,rfl⟩,by simpa [bottomUp] using .refl⟩
        | some c =>
            rw [first] at here
            obtain ⟨others,same,through⟩ := ihChildren below nodupBelow first order (fun r member => apart r (by simp [member]))
            obtain ⟨inside,last,alone⟩ := before_first same nodupBelow
            obtain ⟨entry,next,child,hereC⟩ := rep_head below first
            have liveC : c ∉ order ++ others := by
              simp only [List.mem_append,not_or]
              exact ⟨apart c (by simp [last]),alone⟩
            have liveQ : q ∉ order ++ others := by
              simp only [List.mem_append,not_or]
              exact ⟨live,fun member => notBelow (inside q member)⟩
            refine ⟨.last,.inl rfl,.head (down_child here live) (through.trans (.one ?_))⟩
            rw [same,← List.append_assoc]
            exact back_child hereC liveC here liveQ
      obtain ⟨spot,done,childrenFreed⟩ := childrenGone
      have still : q ∉ order ++ bottomUp children := by
        simp only [List.mem_append,mem_bottomUp,not_or]
        exact ⟨live,notBelow⟩
      refine ⟨bottomUp children ++ bottomUp rest,by simp [bottomUp],childrenFreed.trans ?_⟩
      rw [← List.append_assoc]
      cases first : head rest with
      | none =>
          obtain rfl := head_none first
          simpa [bottomUp] using left_back here still done
      | some r =>
          rw [first] at here
          obtain ⟨others,same,through⟩ := ihRest after nodupAfter first (order ++ bottomUp children) (by
            intro t member
            simp only [List.mem_append,mem_bottomUp,not_or]
            exact ⟨apart t (by simp [member]),fun inside => split t inside t member rfl⟩)
          obtain ⟨inside,last,alone⟩ := before_first same nodupAfter
          obtain ⟨entry,next,child,hereR⟩ := rep_head after first
          have liveR : r ∉ order ++ bottomUp children ++ others := by
            simp only [List.mem_append,mem_bottomUp,not_or]
            exact ⟨⟨apart r (by simp [last]),fun inside => split r inside r last rfl⟩,alone⟩
          refine .head (left_next here still done) (through.trans (.one ?_))
          rw [same,← List.append_assoc]
          exact back_sibling hereR liveR

-- The walk ends without a look at a block that is gone. Every block of the tree is freed once, with
-- its key and value before it and all that is under it before that, and nothing else is.
theorem each_block_freed_once {a : Placed Entry} (rep : Rep h none none none a) (separate : Separate a) :
    ∃ later order, Ends freeTconfig (.start h (head a)) (later,freedBlocks order) ∧
      order.Nodup ∧ (∀ p, p ∈ order ↔ p ∈ addresses a) ∧ (∀ q p, Under q p a → [q,p].Sublist order) ∧
      ∀ p, cell later p = if p ∈ addresses a then none else cell h p := by
  refine ⟨disposed h (bottomUp a),bottomUp a,?_,bottomUp_nodup separate,fun p => mem_bottomUp,fun q p => under_first,?_⟩
  · cases first : head a with
    | none =>
        obtain rfl := head_none first
        exact ends_now rfl
    | some p =>
        obtain ⟨others,same,through⟩ := row_freed rep separate first [] [] (by simp)
        obtain ⟨inside,last,alone⟩ := before_first same separate
        obtain ⟨entry,next,child,here⟩ := rep_head rep first
        refine through.ends (ends_later (back_sibling here (by simpa using alone)) ?_)
        rw [same]
        exact ends_now rfl
  · intro p
    rw [cell_disposed]
    simp only [mem_bottomUp]

def freedExample : Forest Entry :=
  .cons ⟨some ['a'],none⟩ (.cons ⟨some ['b'],none⟩ .nil (.cons ⟨some ['c'],none⟩ .nil .nil)) (.cons ⟨some ['d'],none⟩ .nil .nil)

theorem four_blocks_freed : ∃ later order, Ends freeTconfig (.start (plant freedExample) (some 0)) (later,freedBlocks order) ∧
    order.Nodup ∧ (∀ p, p ∈ order ↔ p ∈ addresses (place 0 freedExample)) ∧
    (∀ q p, Under q p (place 0 freedExample) → [q,p].Sublist order) ∧
    ∀ p, cell later p = if p ∈ addresses (place 0 freedExample) then none else cell (plant freedExample) p :=
  each_block_freed_once (rep_plant freedExample) (separate_place 0 freedExample)

end Trollbot.Tconfig
