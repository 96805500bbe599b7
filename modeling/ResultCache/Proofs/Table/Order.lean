/-
The order of use kept in the slots. `Links` says that the slots of a list point at each other one
after another, `Ordered` that a slab links exactly the slots of a list, from its head to its tail.
Taking a slot out of the order, putting one first and moving one to the front are erasing, consing
and both on that list, and none of them touches anything but links (`Relinked`).
-/
import ResultCache.Table.Slab
import Mathlib.Data.List.Induction
import Mathlib.Data.List.Nodup
import Mathlib.Data.List.Perm.Subperm

namespace ResultCache.Slab

/-! ## Linked slots -/

/-- The slots of a list point at each other in order; `prev` and `next` are what stands before the
first and behind the last of them. -/
def Links (slots : Array Slot) : Option Nat → List Nat → Option Nat → Prop
  | _, [], _ => True
  | prev, s :: rest, next =>
    (∃ e, slots[s]? = some ⟨e, prev, rest.head?.or next⟩) ∧ Links slots (some s) rest next

theorem links_append {slots : Array Slot} {L M : List Nat} {prev next : Option Nat} :
    Links slots prev (L ++ M) next ↔
      Links slots prev L (M.head?.or next) ∧ Links slots (L.getLast?.or prev) M next := by
  induction L generalizing prev with
  | nil => simp [Links]
  | cons s L ih =>
    have hlast : (s :: L).getLast?.or prev = L.getLast?.or (some s) := by
      rw [List.getLast?_cons]; cases L.getLast? <;> rfl
    simp only [List.cons_append, Links, ih, List.head?_append, Option.or_assoc, hlast, and_assoc]

/-- Changing a slot outside of a list leaves its links alone. -/
theorem Links.modify {slots : Array Slot} {L : List Nat} {prev next : Option Nat} {s : Nat}
    (f : Slot → Slot) (h : Links slots prev L next) (hs : s ∉ L) :
    Links (slots.modify s f) prev L next := by
  induction L generalizing prev with
  | nil => trivial
  | cons a L ih =>
    obtain ⟨⟨e, ha⟩, hL⟩ := h
    rw [List.mem_cons, not_or] at hs
    exact ⟨⟨e, by rw [Array.getElem?_modify, if_neg hs.1, ha]⟩, ih hL hs.2⟩

theorem Links.lt_size {slots : Array Slot} {L : List Nat} {prev next : Option Nat}
    (h : Links slots prev L next) : ∀ s ∈ L, s < slots.size := by
  induction L generalizing prev with
  | nil => simp
  | cons a L ih =>
    obtain ⟨⟨e, ha⟩, hL⟩ := h
    intro s hs
    rcases List.mem_cons.1 hs with rfl | hs
    · exact (Array.getElem?_eq_some_iff.1 ha).1
    · exact ih hL s hs

/-- What stands before the first slot may be changed there. -/
theorem Links.setPrev {slots : Array Slot} {L : List Nat} {s : Nat} {prev next : Option Nat}
    (prev' : Option Nat) (h : Links slots prev (s :: L) next) (hs : s ∉ L) :
    Links (slots.modify s fun x => { x with prev := prev' }) prev' (s :: L) next := by
  obtain ⟨⟨e, he⟩, hL⟩ := h
  exact ⟨⟨e, by simp [Array.getElem?_modify, he]⟩, hL.modify _ hs⟩

/-- What stands behind the last slot may be changed there. -/
theorem Links.setNext {slots : Array Slot} {L : List Nat} {s : Nat} {prev next : Option Nat}
    (next' : Option Nat) (h : Links slots prev (L ++ [s]) next) (hs : s ∉ L) :
    Links (slots.modify s fun x => { x with next := next' }) prev (L ++ [s]) next' := by
  obtain ⟨hL, ⟨e, he⟩, -⟩ := links_append.1 h
  refine links_append.2 ⟨hL.modify _ hs, ⟨e, ?_⟩, trivial⟩
  simp [Array.getElem?_modify, he]

/-! ## Changes of links only -/

/-- The second slab is the first one with other links. -/
structure Relinked (t t' : Slab) : Prop where
  keys : t'.keys = t.keys
  free : t'.free = t.free
  usedBytes : t'.usedBytes = t.usedBytes
  size : t'.slots.size = t.slots.size
  held : t'.entryAt? = t.entryAt?

theorem Relinked.refl (t : Slab) : Relinked t t := ⟨rfl, rfl, rfl, rfl, rfl⟩

theorem Relinked.trans {t u v : Slab} (h : Relinked t u) (h' : Relinked u v) : Relinked t v :=
  ⟨h'.keys.trans h.keys, h'.free.trans h.free, h'.usedBytes.trans h.usedBytes, h'.size.trans h.size,
    h'.held.trans h.held⟩

theorem entryAt?_modify {t : Slab} {s : Nat} {f : Slot → Slot} (hf : ∀ x, (f x).entry = x.entry) :
    ({ t with slots := t.slots.modify s f } : Slab).entryAt? = t.entryAt? := by
  funext i
  show ((t.slots.modify s f)[i]?).bind Slot.entry = (t.slots[i]?).bind Slot.entry
  rw [Array.getElem?_modify]
  split
  · cases t.slots[i]? with
    | none => rfl
    | some x => exact hf x
  · rfl

theorem setPrev_relinked (s : Nat) (prev : Option Nat) (t : Slab) : Relinked t (t.setPrev s prev) :=
  ⟨rfl, rfl, rfl, Array.size_modify, entryAt?_modify fun _ => rfl⟩

theorem setNext_relinked (s : Nat) (next : Option Nat) (t : Slab) : Relinked t (t.setNext s next) :=
  ⟨rfl, rfl, rfl, Array.size_modify, entryAt?_modify fun _ => rfl⟩

theorem linkNext_relinked (prev next : Option Nat) (t : Slab) :
    Relinked t (t.linkNext prev next) := by
  cases prev with
  | none => exact ⟨rfl, rfl, rfl, rfl, rfl⟩
  | some p => exact setNext_relinked p next t

theorem linkPrev_relinked (next prev : Option Nat) (t : Slab) :
    Relinked t (t.linkPrev next prev) := by
  cases next with
  | none => exact ⟨rfl, rfl, rfl, rfl, rfl⟩
  | some n => exact setPrev_relinked n prev t

theorem detach_relinked (s : Nat) (t : Slab) : Relinked t (t.detach s) := by
  unfold detach
  exact ((linkNext_relinked _ _ _).trans (linkPrev_relinked _ _ _)).trans
    ((setPrev_relinked _ _ _).trans (setNext_relinked _ _ _))

theorem pushFront_relinked (s : Nat) (t : Slab) : Relinked t (t.pushFront s) := by
  have h := (setPrev_relinked s none t).trans (setNext_relinked s t.head (t.setPrev s none))
  have h' : Relinked t (((t.setPrev s none).setNext s t.head).linkPrev t.head (some s)) :=
    h.trans (linkPrev_relinked _ _ _)
  unfold pushFront
  dsimp only
  cases hh : ((t.setPrev s none).setNext s t.head).head with
  | none => exact ⟨h.keys, h.free, h.usedBytes, h.size, h.held⟩
  | some a =>
    -- setting the links of `s` leaves the head alone
    have : t.head = some a := hh
    rw [this] at h' ⊢
    exact ⟨h'.keys, h'.free, h'.usedBytes, h'.size, h'.held⟩

theorem promote_relinked (s : Nat) (t : Slab) : Relinked t (t.promote s) := by
  unfold promote
  split
  · exact Relinked.refl t
  · exact (detach_relinked s t).trans (pushFront_relinked s _)

/-! ## Joining neighbours -/

theorem setPrev_frame {t : Slab} {L : List Nat} {s : Nat} {prev next : Option Nat}
    (p : Option Nat) (h : Links t.slots prev L next) (hs : s ∉ L) :
    Links (t.setPrev s p).slots prev L next :=
  h.modify (fun x => { x with prev := p }) hs

theorem setNext_frame {t : Slab} {L : List Nat} {s : Nat} {prev next : Option Nat}
    (n : Option Nat) (h : Links t.slots prev L next) (hs : s ∉ L) :
    Links (t.setNext s n).slots prev L next :=
  h.modify (fun x => { x with next := n }) hs

theorem linkNext_links {t : Slab} {L : List Nat} {next : Option Nat} (next' : Option Nat)
    (h : Links t.slots none L next) (hL : L.Nodup) :
    Links (t.linkNext L.getLast? next').slots none L next' := by
  induction L using List.reverseRecOn with
  | nil => trivial
  | append_singleton L s =>
    rw [List.getLast?_concat]
    exact h.setNext next' fun hs => (List.nodup_append.1 hL).2.2 s hs s (List.mem_singleton_self s) rfl

theorem linkPrev_links {t : Slab} {L : List Nat} {prev : Option Nat} (prev' : Option Nat)
    (h : Links t.slots prev L none) (hL : L.Nodup) :
    Links (t.linkPrev L.head? prev').slots prev' L none := by
  cases L with
  | nil => trivial
  | cons s L => exact h.setPrev prev' (List.nodup_cons.1 hL).1

theorem linkNext_frame {t : Slab} {L M : List Nat} {prev next : Option Nat} (next' : Option Nat)
    (h : Links t.slots prev M next) (hd : List.Disjoint L M) :
    Links (t.linkNext L.getLast? next').slots prev M next := by
  cases hl : L.getLast? with
  | none => exact h
  | some s => exact setNext_frame next' h (hd (List.mem_of_getLast? hl))

theorem linkPrev_frame {t : Slab} {L M : List Nat} {prev next : Option Nat} (prev' : Option Nat)
    (h : Links t.slots prev L next) (hd : List.Disjoint L M) :
    Links (t.linkPrev M.head? prev').slots prev L next := by
  cases M with
  | nil => exact h
  | cons s M => exact setPrev_frame prev' h fun hs => hd hs (List.mem_cons_self ..)

theorem linkNext_head {t : Slab} {L : List Nat} {next : Option Nat} (next' : Option Nat)
    (h : t.head = L.head?.or next) : (t.linkNext L.getLast? next').head = L.head?.or next' := by
  induction L using List.reverseRecOn with
  | nil => rfl
  | append_singleton L s =>
    rw [List.getLast?_concat]
    show t.head = _
    rw [h]; cases L <;> rfl

theorem linkPrev_tail {t : Slab} {L : List Nat} {prev : Option Nat} (prev' : Option Nat)
    (h : t.tail = L.getLast?.or prev) : (t.linkPrev L.head? prev').tail = L.getLast?.or prev' := by
  cases L with
  | nil => rfl
  | cons s L =>
    show t.tail = _
    rw [h, List.getLast?_cons]; rfl

@[simp] theorem linkNext_tail (prev next : Option Nat) (t : Slab) :
    (t.linkNext prev next).tail = t.tail := by
  cases prev <;> rfl

@[simp] theorem linkPrev_head (next prev : Option Nat) (t : Slab) :
    (t.linkPrev next prev).head = t.head := by
  cases next <;> rfl

/-! ## The order of a slab -/

/-- A slab links the slots of a list, each of them once, from its head to its tail. -/
structure Ordered (t : Slab) (L : List Nat) : Prop where
  nodup : L.Nodup
  links : Links t.slots none L none
  head : t.head = L.head?
  tail : t.tail = L.getLast?

theorem empty_ordered : empty.Ordered [] := ⟨List.nodup_nil, trivial, rfl, rfl⟩

/-- Only the head, the tail and the slots matter for the order. -/
theorem Ordered.congr {t t' : Slab} {L : List Nat} (h : t.Ordered L) (hs : t'.slots = t.slots)
    (hh : t'.head = t.head) (ht : t'.tail = t.tail) : t'.Ordered L :=
  ⟨h.nodup, hs ▸ h.links, hh.trans h.head, ht.trans h.tail⟩

/-- Detaching a slot erases it from the order. -/
theorem Ordered.detach {t : Slab} {L M : List Nat} {s : Nat} (h : t.Ordered (L ++ s :: M)) :
    (t.detach s).Ordered (L ++ M) := by
  obtain ⟨hL, hsM, hd⟩ := List.nodup_append.1 h.nodup
  obtain ⟨hs, hM⟩ := List.nodup_cons.1 hsM
  have hLM : List.Disjoint L M := fun a ha ha' => hd a ha a (List.mem_cons_of_mem _ ha') rfl
  have hsL : s ∉ L := fun hm => hd s hm s (List.mem_cons_self ..) rfl
  obtain ⟨hlinksL, ⟨e, hslot⟩, hlinksM⟩ := links_append.1 h.links
  have hslot : t.slots[s]?.getD {} = ⟨e, L.getLast?, M.head?⟩ := by
    rw [hslot, Option.or_none, Option.or_none]; rfl
  have hhead : t.head = L.head?.or (some s) := by rw [h.head, List.head?_append]; rfl
  have htail : t.tail = M.getLast?.or (some s) := by
    rw [h.tail, List.getLast?_append, List.getLast?_cons]; cases M.getLast? <;> rfl
  unfold Slab.detach
  rw [hslot]
  dsimp only
  -- the neighbours on the two sides point at each other before `s` is cut off
  have joinedL : Links ((t.linkNext L.getLast? M.head?).linkPrev M.head? L.getLast?).slots none L
      M.head? :=
    linkPrev_frame _ (linkNext_links _ hlinksL hL) hLM
  have joinedM : Links ((t.linkNext L.getLast? M.head?).linkPrev M.head? L.getLast?).slots
      L.getLast? M none :=
    linkPrev_links _ (linkNext_frame _ hlinksM hLM) hM
  refine ⟨List.nodup_append.2 ⟨hL, hM, fun a ha b hb hab => hLM ha (hab ▸ hb)⟩, ?_, ?_, ?_⟩
  · rw [links_append, Option.or_none, Option.or_none]
    exact ⟨setNext_frame none (setPrev_frame none joinedL hsL) hsL,
      setNext_frame none (setPrev_frame none joinedM hs) hs⟩
  · show ((t.linkNext L.getLast? M.head?).linkPrev M.head? L.getLast?).head = _
    rw [linkPrev_head, linkNext_head _ hhead, List.head?_append]
  · have htail' : (t.linkNext L.getLast? M.head?).tail = M.getLast?.or (some s) := by
      rw [linkNext_tail, htail]
    show ((t.linkNext L.getLast? M.head?).linkPrev M.head? L.getLast?).tail = _
    rw [linkPrev_tail _ htail', List.getLast?_append]

/-- A slot pushed to the front stands first in the order. -/
theorem Ordered.pushFront {t : Slab} {L : List Nat} {s : Nat} (h : t.Ordered L) (hs : s ∉ L)
    (hlt : s < t.slots.size) : (t.pushFront s).Ordered (s :: L) := by
  have hslot : ((t.setPrev s none).setNext s t.head).slots[s]? =
      some ⟨t.slots[s].entry, none, L.head?⟩ := by
    simp [setPrev, setNext, Array.getElem?_modify, Array.getElem?_eq_getElem hlt, h.head]
  have hrest : Links ((t.setPrev s none).setNext s t.head).slots none L none :=
    setNext_frame _ (setPrev_frame none h.links hs) hs
  have hnodup : (s :: L).Nodup := List.nodup_cons.2 ⟨hs, h.nodup⟩
  have hhead : ((t.setPrev s none).setNext s t.head).head = L.head? := h.head
  have htail : t.tail = L.getLast? := h.tail
  unfold Slab.pushFront
  dsimp only
  rw [hhead]
  cases L with
  | nil => exact ⟨hnodup, ⟨⟨_, hslot⟩, trivial⟩, rfl, congrArg (Option.or · (some s)) htail⟩
  | cons a L =>
    obtain ⟨hsa, -⟩ := not_or.1 (fun hm => hs (List.mem_cons.2 hm))
    refine ⟨hnodup, ⟨⟨t.slots[s].entry, ?_⟩, ?_⟩, rfl, ?_⟩
    · -- the old first slot is another one than `s`
      show (((t.setPrev s none).setNext s t.head).slots.modify a _)[s]? = _
      rw [Array.getElem?_modify, if_neg (Ne.symm hsa)]
      exact hslot
    · exact hrest.setPrev (some s) (List.nodup_cons.1 h.nodup).1
    · show t.tail.or (some s) = _
      rw [htail, List.getLast?_cons, List.getLast?_cons, List.getLast?_cons]; rfl

theorem Ordered.promote {t : Slab} {L M : List Nat} {s : Nat} (h : t.Ordered (L ++ s :: M)) :
    (t.promote s).Ordered (s :: (L ++ M)) := by
  have hs : s ∉ L ++ M := (List.nodup_middle.1 h.nodup).notMem
  have hlt : s < t.slots.size := h.links.lt_size s (by simp)
  unfold Slab.promote
  by_cases hh : t.head = some s
  · -- only the first slot of the order is the head
    rw [if_pos hh]
    cases L with
    | nil => exact h
    | cons a L =>
      rw [h.head] at hh
      cases hh
      exact absurd (List.mem_append_left M (List.mem_cons_self ..)) hs
  · rw [if_neg hh]
    exact h.detach.pushFront hs ((detach_relinked s t).size ▸ hlt)

/-! ## Going along the order -/

/-- Going on by `link` from `start` meets exactly the slots of a list, one after another, and then
ends. -/
def Walk (t : Slab) (link : Slot → Option Nat) : Option Nat → List Nat → Prop
  | start, [] => start = none
  | start, s :: rest => start = some s ∧ ∃ x, t.slots[s]? = some x ∧ t.Walk link (link x) rest

theorem Links.walk_next {t : Slab} {L : List Nat} {prev : Option Nat}
    (h : Links t.slots prev L none) : t.Walk Slot.next L.head? L := by
  induction L generalizing prev with
  | nil => rfl
  | cons s L ih =>
    obtain ⟨⟨e, he⟩, hL⟩ := h
    rw [Option.or_none] at he
    exact ⟨rfl, _, he, ih hL⟩

theorem Links.walk_prev {t : Slab} {L : List Nat} {next : Option Nat}
    (h : Links t.slots none L next) : t.Walk Slot.prev L.getLast? L.reverse := by
  induction L using List.reverseRecOn generalizing next with
  | nil => rfl
  | append_singleton L s ih =>
    obtain ⟨hL, ⟨e, he⟩, -⟩ := links_append.1 h
    rw [Option.or_none] at he
    rw [List.getLast?_concat, List.reverse_append]
    exact ⟨rfl, _, he, ih hL⟩

theorem Links.follow {t : Slab} {L : List Nat} {prev : Option Nat} {steps : Nat}
    (h : Links t.slots prev L none) (hle : L.length ≤ steps) : t.follow steps L.head? = L := by
  induction L generalizing prev steps with
  | nil => cases steps <;> rfl
  | cons s L ih =>
    obtain ⟨⟨e, he⟩, hL⟩ := h
    obtain ⟨n, rfl⟩ : ∃ n, steps = n + 1 := ⟨steps - 1, by simp only [List.length_cons] at hle; omega⟩
    show s :: t.follow n ((t.slots[s]?).bind Slot.next) = s :: L
    rw [he, Option.bind_some, Option.or_none]
    rw [ih hL (by simpa using hle)]

/-- No slot is linked twice, so going along as many slots as there are meets all that are linked. -/
theorem Ordered.linked {t : Slab} {L : List Nat} (h : t.Ordered L) : t.linked = L := by
  have hle : L.length ≤ (List.range t.slots.size).length :=
    (h.nodup.subperm fun s hs => List.mem_range.2 (h.links.lt_size s hs)).length_le
  rw [List.length_range] at hle
  unfold Slab.linked
  rw [h.head]
  exact h.links.follow hle

end ResultCache.Slab
