import Trollbot.TconfigLevel

namespace Trollbot.Tconfig
open CBuffer Linked Machine

-- A call of tconfig_merge from the loop over the blocks that a '*' block stands for: that block,
-- the caller's dst, the block whose children are being merged and the caller's depth.
structure Call where
  src : Nat
  dst : Nat
  tmp : Nat
  depth : Nat
deriving DecidableEq

-- tconfig_merge: the head of its loop, the loop over the blocks that a '*' block stands for, and
-- the loop that leaves finished levels.
inductive MergeState where
  | loop (heap : Heap Entry) (src dst : Option Nat) (depth : Nat) (calls : List Call)
  | wild (heap : Heap Entry) (src dst : Nat) (tmp : Option Nat) (depth : Nat) (calls : List Call)
  | climb (heap : Heap Entry) (src : Nat) (dst : Option Nat) (depth : Nat) (calls : List Call)
deriving DecidableEq

def returned (heap : Heap Entry) : List Call → Outcome MergeState (Heap Entry)
  | [] => .done heap
  | call :: calls =>
    match cell heap call.tmp with
    | none => .fault
    | some tmp => .next (.wild heap call.src call.dst tmp.next call.depth calls)

-- On to the last block or to a block without a key, which takes the entry; else a new last block
-- takes it.
def place (h : Heap Entry) (dst : Nat) (e : Entry) : Option (Heap Entry × Nat) := do
  let dst ← walkEnd h (fun other => other.key.isSome) h.length dst
  let n ← cell h dst
  match n.label.key with
  | none => some (store h dst { n with label := e },dst)
  | some _ => some (store (alloc h ⟨e,some dst,none,none,none⟩) dst { n with next := some h.length },h.length)

-- A key that is wanted twice is written with an '@', which is not copied.
def plainKey (key : Str) : Str := if key.head? = some '@' then key.tail else key

def addLeaf (h : Heap Entry) (dst : Nat) (key value : Str) : Option (Heap Entry × Nat) := do
  let (h,dst) ← place h dst ⟨some (plainKey key),some value⟩
  let n ← cell h dst
  some (store h dst { n with next := none },dst)

-- The new block loses its parent, which a block that takes the place of a blank first child has.
def addBlock (h : Heap Entry) (dst : Nat) (key value : Str) : Option (Heap Entry × Nat) := do
  let (h,dst) ← place h dst ⟨some key,some value⟩
  let n ← cell h dst
  some (store (alloc h ⟨.blank,none,none,some dst,none⟩) dst { n with parent := none, child := some h.length },h.length)

def sameKey (key : Str) (e : Entry) : Bool := e.key == some key

-- Keys and values are compared as strings: a block of src without one faults, and a block with a key
-- is taken to have a value.
def mergeStep : MergeState → Outcome MergeState (Heap Entry)
  | .loop heap none _ _ calls => returned heap calls
  | .loop heap (some src) dst depth calls =>
    match cell heap src,dst with
    | some s,some dst =>
      match s.label.key,s.label.value,rewind heap dst with
      | some key,some value,some first =>
        match s.child with
        | some child =>
          if value = ['*'] then .next (.wild heap src dst (some first) depth calls)
          else
            match walkOn heap (sameEntry key value) heap.length (some first) none with
            | none => .fault
            | some (some tmp,_) =>
              match cell heap tmp with
              | none => .fault
              | some n => .next (.loop heap (some child) n.child (depth + 1) calls)
            | some (none,_) =>
              match addBlock heap dst key value with
              | none => .fault
              | some (heap,dst) => .next (.loop heap (some child) (some dst) (depth + 1) calls)
        | none =>
          match walkOn heap (fun e => sameKey key e && key.head? != some '@') heap.length (some first) none with
          | none => .fault
          | some (some _,_) => .next (.climb heap src (some dst) depth calls)
          | some (none,_) =>
            match addLeaf heap dst key value with
            | none => .fault
            | some (heap,dst) => .next (.climb heap src (some dst) depth calls)
      | _,_,_ => .fault
    | _,_ => .fault
  | .wild heap src dst tmp depth calls =>
    match cell heap src with
    | none => .fault
    | some s =>
      match tmp with
      | none => .next (.loop heap s.next (some dst) depth calls)
      | some tmp =>
        match cell heap tmp with
        | none => .fault
        | some n =>
          match n.label.key with
          | none => .next (.wild heap src dst n.next depth calls)
          | some _ =>
            if s.label.key = n.label.key then
              match n.child with
              | none =>
                .next (.loop (store (alloc heap ⟨.blank,none,none,some tmp,none⟩) tmp { n with child := some heap.length })
                  s.child (some heap.length) 0 (⟨src,dst,tmp,depth⟩ :: calls))
              | some child => .next (.loop heap s.child (some child) 0 (⟨src,dst,tmp,depth⟩ :: calls))
            else .next (.wild heap src dst n.next depth calls)
  | .climb heap src dst depth calls =>
    match cell heap src with
    | none => .fault
    | some s =>
      match s.next with
      | some next => .next (.loop heap (some next) dst depth calls)
      | none =>
        if depth = 0 then returned heap calls else
        match (rewind heap src).bind (cell heap),(dst.bind (rewind heap)).bind (cell heap) with
        | some first,some top =>
          match first.parent with
          | none => .fault
          | some owner => .next (.climb heap owner top.parent (depth - 1) calls)
        | _,_ => .fault

-- The call ends with the heap: the trees are changed in place, and dst stays where it is.
def tconfigMerge (h : Heap Entry) : Option Nat → Option Nat → Heap Entry → Prop
  | some src,some dst,later => Ends mergeStep (.loop h (some src) (some dst) 0 []) later
  | _,_,later => later = h

-- What merging is for. A pair that is missing is added; a '*' block goes into every block with its
-- key, another block into every block with its key and value, and it is added whole if there is none.
def hasKey (key : Option Str) (b : Forest Entry) : Bool := b.row.any (fun e => e.key == key)

def addMissing (e : Entry) (b : Forest Entry) : Forest Entry := if hasKey e.key b then b else b.append (.one e .nil)

def onMatching (hit : Entry → Bool) (f : Forest Entry → Forest Entry) : Forest Entry → Forest Entry
  | .nil => .nil
  | .cons e children rest => .cons e (if hit e then f children else children) (onMatching hit f rest)

def merged : Forest Entry → Forest Entry → Forest Entry
  | .nil,dst => dst
  | .cons e .nil rest,dst => merged rest (addMissing e dst)
  | .cons e (.cons inner below after) rest,dst =>
    if e.value = some ['*'] then
      merged rest (onMatching (fun other => other.key == e.key) (fun found => merged (.cons inner below after) found) dst)
    else if e ∈ dst.row then
      merged rest (onMatching (fun other => other == e) (fun found => merged (.cons inner below after) found) dst)
    else merged rest (dst.append (.one e (.cons inner below after)))

-- A block of a file, with a key that does not ask for a duplicate.
def Keyed (e : Entry) : Prop := ∃ key value, e = ⟨some key,some value⟩ ∧ key.head? ≠ some '@'

-- No '*' block, and nothing that would be taken for an earlier sibling.
def Whole (earlier : List Entry) : Forest Entry → Prop
  | .nil => True
  | .cons e .nil rest => (∀ old ∈ earlier, old.key ≠ e.key) ∧ Whole (earlier ++ [e]) rest
  | .cons e (.cons inner below after) rest =>
    e.value ≠ some ['*'] ∧ e ∉ earlier ∧ Whole [] (.cons inner below after) ∧ Whole (earlier ++ [e]) rest

-- Some block has no children.
def HasLeaf (b : Forest Entry) : Prop := ∃ block ∈ b.blocks, block.2 = .nil

-- The trees that the loop gets right. `more` says that the call has siblings left on an outer level.
def Mergeable (more : Bool) : Forest Entry → Forest Entry → Prop
  | .nil,_ => True
  | .cons e .nil rest,dst => Mergeable more rest (addMissing e dst)
  | .cons e (.cons inner below after) rest,dst =>
    if e.value = some ['*'] then
      -- the end of a level that a '*' block is last on ends the call
      (rest = .nil → more = false) ∧
      (∀ block ∈ dst.blocks, block.1.key = e.key →
        (block.2 = .nil → HasLeaf (.cons inner below after)) ∧ Mergeable false (.cons inner below after) block.2) ∧
      Mergeable more rest (onMatching (fun other => other.key == e.key) (merged (.cons inner below after)) dst)
    else if e ∈ dst.row then
      -- the first match is taken, and its first child, which has to be there
      dst.row.count e = 1 ∧
      (∀ block ∈ dst.blocks, block.1 = e →
        block.2 ≠ .nil ∧ Mergeable (more || decide (rest ≠ .nil)) (.cons inner below after) block.2) ∧
      Mergeable more rest (onMatching (fun other => other == e) (merged (.cons inner below after)) dst)
    else
      -- a block in the place of a blank first child loses its parent
      dst ≠ .nil ∧ Whole [] (.cons inner below after) ∧
      Mergeable (more || decide (rest ≠ .nil)) (.cons inner below after) .nil ∧
      Mergeable more rest (dst.append (.one e (.cons inner below after)))

theorem merged_cons (e : Entry) (children rest dst : Forest Entry) :
    merged (.cons e children rest) dst = merged rest (merged (.one e children) dst) := by
  cases children with
  | nil => rfl
  | cons inner below after =>
      simp only [Forest.one,merged]
      split
      · rfl
      · split
        · rfl
        · rfl

theorem mergeable_rest (good : Mergeable more (.cons e children rest) dst) :
    Mergeable more rest (merged (.one e children) dst) := by
  cases children with
  | nil => exact good
  | cons inner below after =>
      unfold Mergeable at good
      simp only [Forest.one,merged]
      split at good
      · rename_i star
        rw [if_pos star]
        exact good.2.2
      · rename_i plain
        rw [if_neg plain]
        split at good
        · rename_i present
          rw [if_pos present]
          exact good.2.2
        · rename_i new
          rw [if_neg new]
          exact good.2.2.2

-- What is added whole is what merging its blocks one by one gives.
theorem merged_whole {b earlier : Forest Entry} (whole : Whole earlier.row b) : merged b earlier = earlier.append b := by
  induction b generalizing earlier with
  | nil => exact (Forest.append_nil earlier).symm
  | cons e children rest _ ih =>
      have grown : ∀ below, (earlier.append (.one e below)).row = earlier.row ++ [e] := by
        simp [Forest.one,Forest.row]
      have regroup : ∀ below, (earlier.append (.one e below)).append rest = earlier.append (.cons e below rest) := by
        simp [Forest.one,Forest.append]
      cases children with
      | nil =>
          obtain ⟨new,whole⟩ := whole
          have missing : addMissing e earlier = earlier.append (.one e .nil) := by
            refine if_neg ?_
            simpa [hasKey] using new
          have later : merged rest (earlier.append (.one e .nil)) = (earlier.append (.one e .nil)).append rest :=
            ih (by rw [grown]; exact whole)
          rw [← regroup,← later,← missing]
          rfl
      | cons inner below after =>
          obtain ⟨plain,new,-,whole⟩ := whole
          rw [← regroup,← ih (by rw [grown]; exact whole),merged,if_neg plain,if_neg new]

theorem onMatching_one {a b : Forest Entry} (before : ∀ g ∈ a.row, hit g = false) (behind : ∀ g ∈ b.row, hit g = false) (here : hit e = true) :
    onMatching hit f (a.append (.cons e children b)) = a.append (.cons e (f children) b) := by
  have untouched : ∀ c : Forest Entry, (∀ g ∈ c.row, hit g = false) → onMatching hit f c = c := by
    intro c misses
    induction c with
    | nil => rfl
    | cons g below rest _ ih =>
        have first : hit g = false := misses g (by simp [Forest.row])
        have others := ih (fun other member => misses other (by simp [Forest.row,member]))
        simp [onMatching,first,others]
  induction a with
  | nil => simp [Forest.append,onMatching,here,untouched b behind]
  | cons g below rest _ ih =>
      have first : hit g = false := before g (by simp [Forest.row])
      have others := ih (fun other member => before other (by simp [Forest.row,member]))
      simp [Forest.append,onMatching,first,others]

-- Every block of the first tree is in the second one, in its place below and among the others.
inductive Within : Forest Entry → Forest Entry → Prop where
  | none : Within .nil b
  | kept : Within children below → Within rest after → Within (.cons e children rest) (.cons e below after)
  | added : Within a after → Within a (.cons e below after)

theorem Within.refl (a : Forest Entry) : Within a a := by
  induction a with
  | nil => exact .none
  | cons e children rest ihChildren ihRest => exact .kept ihChildren ihRest

theorem Within.trans (first : Within a b) (second : Within b c) : Within a c := by
  induction second generalizing a with
  | none =>
      cases first
      exact .none
  | kept _ _ ihBelow ihAfter =>
      cases first with
      | none => exact .none
      | kept below after => exact .kept (ihBelow below) (ihAfter after)
      | added rest => exact .added (ihAfter rest)
  | added _ ih => exact .added (ih first)

theorem within_append (a b : Forest Entry) : Within a (a.append b) := by
  induction a with
  | nil => exact .none
  | cons e children rest _ ih => exact .kept (.refl children) ih

theorem within_onMatching (grows : ∀ b, Within b (f b)) (hit : Entry → Bool) (a : Forest Entry) :
    Within a (onMatching hit f a) := by
  induction a with
  | nil => exact .none
  | cons e children rest _ ih =>
      refine .kept ?_ ih
      split
      · exact grows children
      · exact .refl children

theorem within_merged (b dst : Forest Entry) : Within dst (merged b dst) := by
  fun_induction merged b dst with
  | case1 dst => exact .refl dst
  | case2 e rest dst ih =>
      refine .trans ?_ ih
      unfold addMissing
      split
      · exact .refl dst
      · exact within_append dst _
  | case3 e inner below after rest dst star ihChildren ih => exact .trans (within_onMatching ihChildren _ dst) ih
  | case4 e inner below after rest dst other present ihChildren ih =>
      exact .trans (within_onMatching ihChildren _ dst) ih
  | case5 e inner below after rest dst other new ih => exact .trans (within_append dst _) ih

theorem within_some (within : Within a b) (some' : a ≠ .nil) : b ≠ .nil := by
  cases within with
  | none => exact absurd rfl some'
  | kept _ _ => simp
  | added _ => simp

theorem addMissing_some (e : Entry) (b : Forest Entry) : addMissing e b ≠ .nil := by
  unfold addMissing
  cases b with
  | nil => simp [hasKey,Forest.row,Forest.append,Forest.one]
  | cons f children rest => split <;> simp [Forest.append]

theorem merged_some {b : Forest Entry} (leaf : HasLeaf b) (dst : Forest Entry) : merged b dst ≠ .nil := by
  induction b generalizing dst with
  | nil =>
      obtain ⟨block,member,-⟩ := leaf
      cases member
  | cons e children rest _ ih =>
      obtain ⟨block,member,childless⟩ := leaf
      rcases List.mem_cons.mp member with rfl | later
      · cases childless
        exact within_some (within_merged rest _) (addMissing_some e dst)
      · have after := ih ⟨block,later,childless⟩
        cases children with
        | nil => exact after _
        | cons inner below more =>
            unfold merged
            split
            · exact after _
            · split
              · exact after _
              · exact after _

theorem onMatching_labels {a : Forest Entry} (member : e ∈ (onMatching hit f a).labels)
    (within : ∀ block ∈ a.blocks, e ∈ (f block.2).labels → P ∨ e ∈ block.2.labels) : P ∨ e ∈ a.labels := by
  induction a with
  | nil => cases member
  | cons label children rest _ ih =>
      have later := fun inside => ih inside (fun block there => within block (by simp [Forest.blocks,there]))
      have here := within (label,children) (by simp [Forest.blocks])
      simp only [onMatching,Forest.labels,List.mem_cons,List.mem_append] at member ⊢
      rcases member with same | below | after
      · exact .inr (.inl same)
      · split at below
        · rcases here below with added | old
          · exact .inl added
          · exact .inr (.inr (.inl old))
        · exact .inr (.inr (.inl below))
      · rcases later after with added | old
        · exact .inl added
        · exact .inr (.inr (.inr old))

theorem merged_labels (b dst : Forest Entry) : ∀ e ∈ (merged b dst).labels, e ∈ b.labels ∨ e ∈ dst.labels := by
  fun_induction merged b dst with
  | case1 dst => exact fun e member => .inr member
  | case2 e rest dst ih =>
      intro other member
      rcases ih other member with old | there
      · exact .inl (Forest.labels_after old)
      · unfold addMissing at there
        split at there
        · exact .inr there
        · simp only [Forest.labels_append,Forest.one,Forest.labels,List.mem_append,List.mem_singleton,List.nil_append] at there
          rcases there with old | rfl
          · exact .inr old
          · exact .inl (by simp [Forest.labels])
  | case3 e inner below after rest dst star ihChildren ih =>
      intro other member
      rcases ih other member with old | there
      · exact .inl (Forest.labels_after old)
      · refine onMatching_labels there ?_
        intro block _ inside
        rcases ihChildren block.2 other inside with new | old
        · exact .inl (Forest.labels_below new)
        · exact .inr old
  | case4 e inner below after rest dst _ present ihChildren ih =>
      intro other member
      rcases ih other member with old | there
      · exact .inl (Forest.labels_after old)
      · refine onMatching_labels there ?_
        intro block _ inside
        rcases ihChildren block.2 other inside with new | old
        · exact .inl (Forest.labels_below new)
        · exact .inr old
  | case5 e inner below after rest dst _ new ih =>
      intro other member
      rcases ih other member with old | there
      · exact .inl (Forest.labels_after old)
      · rw [Forest.labels_append,List.mem_append] at there
        rcases there with old | new
        · exact .inr old
        · refine .inl ?_
          simp only [Forest.one,Forest.labels,List.mem_cons,List.mem_append,List.append_nil] at new ⊢
          tauto

end Trollbot.Tconfig
