import Trollbot.Tconfig

namespace Trollbot.Tconfig
open CBuffer Linked Machine

@[simp] theorem bare_nil : bare (.nil : Placed Entry) = .nil := rfl
@[simp] theorem bare_cons (p : Nat) (e : Entry) (children rest : Placed Entry) :
    bare (.cons (p,e) children rest) = .cons e (bare children) (bare rest) := rfl
@[simp] theorem bare_append (a b : Placed Entry) : bare (a.append b) = (bare a).append (bare b) := by
  simp [bare]

theorem sameEntry_iff : sameEntry key value e = true ↔ e = ⟨some key,some value⟩ := by
  obtain ⟨k,v⟩ := e
  simp [sameEntry]

-- What a level holds: nothing while its only block is blank.
def base (a : Placed Entry) : Forest Entry := if bare a = .one .blank .nil then .nil else bare a

-- A whole level, and a block of it that a cursor stands on.
structure Level (h : Heap Entry) (parent : Option Nat) (a : Placed Entry) (block : Nat) : Prop where
  rep : Rep h none parent none a
  separate : Separate a
  member : block ∈ siblings a

theorem Level.headed {a : Placed Entry} (level : Level h parent a block) : ∃ first, head a = some first := by
  apply head_some
  rintro rfl
  cases level.member

theorem base_blank (p : Nat) : base (.one (p,.blank) .nil) = .nil := by simp [base,Forest.one]

theorem base_filled (filled : ∀ label ∈ a.row, label.2 ≠ Entry.blank) : base a = bare a := by
  unfold base
  split
  · rename_i blank
    cases a with
    | nil => cases blank
    | cons label children rest =>
        obtain ⟨p,e⟩ := label
        simp only [bare_cons,Forest.one,Forest.cons.injEq] at blank
        exact absurd blank.1 (filled (p,e) (by simp [Forest.row]))
  · rfl

theorem base_some (content : base a = b) (some : b ≠ .nil) : bare a = b := by
  unfold base at content
  split at content
  · exact absurd content.symm some
  · exact content

theorem base_last {x : Placed Entry} (filled : ∀ label ∈ x.row, label.2 ≠ Entry.blank) (written : e ≠ .blank) :
    base (x.append (.one (q,e) below)) = (bare x).append (.one e (bare below)) := by
  rw [base_filled]
  · simp [Forest.one]
  · intro label member
    rw [Forest.row_append,List.mem_append] at member
    rcases member with old | new
    · exact filled label old
    · obtain rfl : label = (q,e) := by simpa [Forest.one,Forest.row] using new
      exact written

-- An entry went into the level `a`, as its last block so far.
structure Inserted (h : Heap Entry) (parent : Option Nat) (a : Placed Entry) (e : Entry) (later : Heap Entry)
    (x : Placed Entry) (q : Nat) : Prop extends Level later parent (x.append (.one (q,e) .nil)) q where
  replaces : Replaces h a (x.append (.one (q,e) .nil))
  keeps : Keeps (addresses a) h later
  before : bare x = base a

-- The two places an entry is put: the blank block, and a new last block.
theorem put_blank (level : Level h parent (.one (p,.blank) .nil) block) (e : Entry) :
    cell h p = some ⟨.blank,none,none,parent,none⟩ ∧
      Inserted h parent (.one (p,.blank) .nil) e (store h p ⟨e,none,none,parent,none⟩) .nil p := by
  have here : cell h p = some ⟨.blank,none,none,parent,none⟩ := level.rep.1
  refine ⟨here,⟨⟨?_,level.separate,?_⟩,?_,?_,?_⟩⟩
  · exact rep_relabel (x := .nil) (y := .nil) level.rep level.separate here e
  · simp [Forest.append,Forest.one,siblings,Forest.row]
  · exact replaces_children (x := .nil) (y := .nil) level.rep level.separate (by simp [Separate]) (by simp) _
  · exact (keeps_store h p _).wider (by simp [Forest.one])
  · exact (base_blank p).symm

theorem put_last (level : Level h parent a block) (filled : ∀ label ∈ a.row, label.2 ≠ Entry.blank) (e : Entry) :
    ∃ (q : Nat) (n : Node Entry), lastOf none a = some q ∧ cell h q = some n ∧ (∃ label ∈ a.row, label.2 = n.label) ∧
      Inserted h parent a e (store (alloc h ⟨e,some q,none,none,none⟩) q { n with next := some h.length }) a h.length := by
  obtain ⟨x,q,label,below,rfl⟩ := last_split a (by rintro rfl; cases level.member)
  have here := (rep_node level.rep).1
  have whole : (x.append (.one (q,label) below)).append (.one (h.length,e) .nil) =
      x.append (.cons (q,label) below (.one (h.length,e) .nil)) := by
    simp [Forest.one,Forest.append]
  have added := replaces_fresh level.rep level.separate e
  refine ⟨q,_,by simp [Forest.one,lastOf],here,⟨(q,label),by simp [Forest.one,Forest.row],rfl⟩,⟨⟨?_,?_,?_⟩,?_,?_,?_⟩⟩
  · rw [whole]
    exact rep_addSibling level.rep level.separate here e
  · rw [whole]
    exact added.separate
  · simp [Forest.one,siblings,Forest.row]
  · rw [whole]
    exact added
  · refine (keeps_alloc (addresses (x.append (.one (q,label) below))) h _).trans (keeps_store _ q _) ?_
    intro p same
    obtain rfl := List.mem_singleton.mp same
    exact .inl (by simp [Forest.one])
  · exact (base_filled filled).symm

-- A blank first child, in the place of the children so far.
theorem child_opens {x children y : Placed Entry} (rep : Rep h none parent none (x.append (.cons (q,e) children y)))
    (separate : Separate (x.append (.cons (q,e) children y))) (here : cell h q = some n)
    (opened : later = store (alloc h ⟨.blank,none,none,some q,none⟩) q { n with child := some h.length }) :
    Rep later none parent none (x.append (.cons (q,e) (.one (h.length,.blank) .nil) y)) ∧
      Replaces h (x.append (.cons (q,e) children y)) (x.append (.cons (q,e) (.one (h.length,.blank) .nil) y)) ∧
      Keeps (addresses (x.append (.cons (q,e) children y))) h later ∧
      Level later (some q) (.one (h.length,.blank) .nil) h.length := by
  subst opened
  have rep' := rep_addChild rep separate here .blank
  refine ⟨rep',?_,?_,?_⟩
  · exact replaces_children rep separate (by simp [Separate,Forest.one]) (by simp [Forest.one]) e
  · refine (keeps_alloc (addresses (x.append (.cons (q,e) children y))) h _).trans (keeps_store _ q _) ?_
    intro p same
    obtain rfl := List.mem_singleton.mp same
    exact .inl (by simp)
  · exact ⟨(rep_node rep').2,by simp [Separate,Forest.one],by simp [siblings,Forest.one,Forest.row]⟩

end Trollbot.Tconfig
