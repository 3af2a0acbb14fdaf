import Mathlib.Data.List.Nodup

/-!
# Doubly linked lists

A doubly linked list is a head pointer and two fields of its cells. `DList next prev head before l`
says that following `next` from `head` meets the cells of `l` in order, and that each cell's `prev`
is the cell before it, `before` for the first.

C code takes a cell out by storing through the pointers to its neighbours, if they are not `NULL`.
`store` is such a store, and **`DList.remove`** says that the two stores take out that cell and
nothing else.
-/

namespace AtomOs.Lib

open List

variable {α : Type*} [DecidableEq α]

/-- The field `f` after `p->f = v`; nothing happens through `NULL`. -/
def store (f : α → Option α) (p : Option α) (v : Option α) : α → Option α :=
  fun x => if some x = p then v else f x

variable {f : α → Option α} {p v : Option α} {l₂ : List α}

theorem store_of_ne {x : α} (h : some x ≠ p) : store f p v x = f x := if_neg h

theorem store_same (f : α → Option α) (x : α) (v : Option α) : store f (some x) v x = v :=
  if_pos rfl

@[simp] theorem store_null (f : α → Option α) (v : Option α) : store f none v = f := by
  funext x
  exact if_neg (by simp)

theorem store_self {x : α} (h : f x = v) : store f (some x) v = f := by
  funext y
  by_cases hy : y = x
  · rw [hy, store_same, h]
  · exact store_of_ne fun he => hy (Option.some.inj he)

theorem store_comm {p' v' : Option α} (h : p ≠ p') :
    store (store f p v) p' v' = store (store f p' v') p v := by
  funext x
  unfold store
  split
  · rename_i hx
    rw [if_neg fun he => h (he.symm.trans hx)]
  · rfl

/-- The cells from `head` on are `l`, in both directions; `before` is in front of them. -/
def DList (next prev : α → Option α) : Option α → Option α → List α → Prop
  | head, _, [] => head = none
  | head, before, x :: l => head = some x ∧ prev x = before ∧ DList next prev (next x) (some x) l

def DList.decide (next prev : α → Option α) :
    ∀ (head before : Option α) (l : List α), Decidable (DList next prev head before l)
  | head, _, [] => inferInstanceAs (Decidable (head = none))
  | head, before, x :: l =>
    have := DList.decide next prev (next x) (some x) l
    inferInstanceAs
      (Decidable (head = some x ∧ prev x = before ∧ DList next prev (next x) (some x) l))

instance (next prev : α → Option α) (head before : Option α) (l : List α) :
    Decidable (DList next prev head before l) := DList.decide next prev head before l

variable {next prev next' prev' : α → Option α} {head before : Option α} {l : List α} {x y : α}

omit [DecidableEq α] in
theorem DList.congr : ∀ {l : List α} {head before : Option α}, DList next prev head before l →
    (∀ z ∈ l, next' z = next z) → (∀ z ∈ l, prev' z = prev z) → DList next' prev' head before l
  | [], _, _, h, _, _ => h
  | x :: l, _, _, h, hn, hp => by
    refine ⟨h.1, (hp x mem_cons_self).trans h.2.1, ?_⟩
    rw [hn x mem_cons_self]
    exact DList.congr h.2.2 (forall_mem_cons.mp hn).2
      (forall_mem_cons.mp hp).2

omit [DecidableEq α] in
theorem DList.next_mem : ∀ {l : List α} {head before : Option α}, DList next prev head before l →
    x ∈ l → next x = some y → y ∈ l.tail
  | [], _, _, _, hx, _ => absurd hx not_mem_nil
  | z :: l, _, _, h, hx, hy => by
    rcases mem_cons.mp hx with rfl | hx
    · cases l with
      | nil => exact absurd (h.2.2.symm.trans hy) (by simp)
      | cons w l =>
        have hw : some w = some y := h.2.2.1.symm.trans hy
        rw [Option.some.inj hw]
        exact mem_cons_self
    · exact mem_of_mem_tail (DList.next_mem h.2.2 hx hy)

omit [DecidableEq α] in
theorem DList.prev_mem : ∀ {l : List α} {head before : Option α}, DList next prev head before l →
    x ∈ l → prev x = before ∧ head = some x ∨ ∃ y ∈ l, prev x = some y
  | [], _, _, _, hx => absurd hx not_mem_nil
  | z :: l, head, before, h, hx => by
    rcases mem_cons.mp hx with rfl | hx
    · exact .inl ⟨h.2.1, h.1⟩
    · rcases DList.prev_mem h.2.2 hx with ⟨hz, -⟩ | ⟨y, hy, hp⟩
      · exact .inr ⟨z, mem_cons_self, hz⟩
      · exact .inr ⟨y, mem_cons_of_mem _ hy, hp⟩

omit [DecidableEq α] in
theorem DList.prev_of_head (h : DList next prev (some x) before l) : prev x = before := by
  cases l with
  | nil => cases h
  | cons z l =>
    cases h.1
    exact h.2.1

omit [DecidableEq α] in
theorem DList.head_eq (h : DList next prev head before l) : head = l.head? := by
  cases l with
  | nil => exact h
  | cons x l => exact h.1

omit [DecidableEq α] in
theorem DList.next_eq : ∀ {l1 : List α} {head before : Option α},
    DList next prev head before (l1 ++ x :: l₂) → next x = l₂.head?
  | [], _, _, h => h.2.2.head_eq
  | _ :: _, _, _, h => DList.next_eq h.2.2

/-- **Taking out a cell.** Nothing of the list may be in front of it, and it meets no cell twice. -/
theorem DList.remove : ∀ {l : List α} {head before : Option α}, DList next prev head before l →
    l.Nodup → (∀ b ∈ l, before ≠ some b) → x ∈ l →
      DList (store next (prev x) (next x)) (store prev (next x) (prev x))
        (if head = some x then next x else head) before (l.erase x)
  | [], _, _, _, _, _, hx => absurd hx not_mem_nil
  | y :: l, head, before, h, hnd, hb, hx => by
    obtain ⟨hhead, hprev, hrest⟩ := h
    obtain ⟨hy, hnd⟩ := nodup_cons.mp hnd
    by_cases hyx : y = x
    · subst hyx
      rw [if_pos hhead, erase_cons_head, hprev]
      cases l with
      | nil => exact hrest
      | cons z l =>
        obtain ⟨hz, hpz, hrest⟩ := hrest
        obtain ⟨hzl, -⟩ := nodup_cons.mp hnd
        have hnb : ∀ w ∈ z :: l, some w ≠ before := fun w hw he =>
          hb w (mem_cons_of_mem _ hw) he.symm
        rw [hz]
        refine ⟨rfl, store_same _ _ _, ?_⟩
        rw [store_of_ne (hnb z mem_cons_self)]
        refine hrest.congr (fun w hw => store_of_ne (hnb w (mem_cons_of_mem _ hw)))
          fun w hw => store_of_ne fun he => hzl ?_
        rw [← Option.some.inj he]
        exact hw
    · have hx' : x ∈ l := (mem_cons.mp hx).resolve_left fun he => hyx he.symm
      have hne : head ≠ some x := fun he => hyx (Option.some.inj (hhead.symm.trans he))
      have hyl : ∀ b ∈ l, some y ≠ some b := fun b hbl he => hy (Option.some.inj he ▸ hbl)
      have ih := DList.remove hrest hnd hyl hx'
      rw [if_neg hne, erase_cons_tail (by simpa using hyx)]
      refine ⟨hhead, ?_, ?_⟩
      · rw [store_of_ne fun he => ?_]
        · exact hprev
        · exact hy (mem_of_mem_tail (hrest.next_mem hx' he.symm))
      · have hnext : store next (prev x) (next x) y =
            if next y = some x then next x else next y := by
          rcases hrest.prev_mem hx' with ⟨hp, hn⟩ | ⟨z, hz, hp⟩
          · rw [if_pos hn, hp, store_same]
          · have hnx : next y ≠ some x := fun hn => by
              rw [hn] at hrest
              exact hyl z hz (hrest.prev_of_head.symm.trans hp)
            rw [if_neg hnx, hp, store_of_ne (hyl z hz)]
        rw [hnext]
        exact ih

omit [DecidableEq α] in
theorem getLast?_cons_or (y : α) (l : List α) (before : Option α) :
    (y :: l).getLast?.or before = l.getLast?.or (some y) := by
  rw [getLast?_cons]
  cases l.getLast? <;> rfl

/-- **Taking the first cell off**, whatever is left in its fields. -/
theorem DList.pop (v w : Option α) (h : DList next prev head before (x :: l)) (hnd : (x :: l).Nodup) :
    DList (store next (some x) v) (store (store prev l.head? none) (some x) w) l.head? none l := by
  obtain ⟨-, -, hrest⟩ := h
  obtain ⟨hx, hnd⟩ := nodup_cons.mp hnd
  have hne : ∀ z ∈ l, some z ≠ some x := fun z hz he => hx (Option.some.inj he ▸ hz)
  cases l with
  | nil => rfl
  | cons y l =>
    obtain ⟨-, -, hrest⟩ := hrest
    obtain ⟨hy, -⟩ := nodup_cons.mp hnd
    refine ⟨rfl, ?_, ?_⟩
    · rw [store_of_ne (hne y mem_cons_self)]
      exact store_same _ _ _
    · rw [store_of_ne (hne y mem_cons_self)]
      refine hrest.congr (fun z hz => store_of_ne (hne z (mem_cons_of_mem _ hz))) fun z hz => ?_
      rw [store_of_ne (hne z (mem_cons_of_mem _ hz))]
      exact store_of_ne fun he => hy (Option.some.inj he ▸ hz)

/-- **Putting a new cell between two parts of a list**, by four stores: the cell's own fields, and
    the fields of its neighbours that point past it. -/
theorem DList.insert : ∀ {l1 : List α} {head before : Option α},
    DList next prev head before (l1 ++ l₂) → x ∉ l1 ++ l₂ → (l1 ++ l₂).Nodup →
    (∀ b ∈ x :: (l1 ++ l₂), before ≠ some b) →
      DList (store (store next (some x) l₂.head?) (l1.getLast?.or before) (some x))
        (store (store prev (some x) (l1.getLast?.or before)) l₂.head? (some x))
        (if l1 = [] then some x else head) before (l1 ++ x :: l₂)
  | [], head, before, h, hx, hnd, hb => by
    have hbx : some x ≠ before := (hb x mem_cons_self).symm
    have hxl : ∀ z ∈ l₂, some z ≠ some x := fun z hz he => hx (Option.some.inj he ▸ hz)
    have hbl : ∀ z ∈ l₂, some z ≠ before := fun z hz he => hb z (mem_cons_of_mem _ hz) he.symm
    refine ⟨if_pos rfl, ?_, ?_⟩
    · rw [store_of_ne, store_same]
      · rfl
      · intro he
        exact hxl x (mem_of_head? he.symm) rfl
    · show DList _ _ (store _ before _ x) _ _
      rw [store_of_ne hbx, store_same]
      cases l₂ with
      | nil => rfl
      | cons z l₂ =>
        obtain ⟨-, -, hrest⟩ := h
        obtain ⟨hzl, -⟩ := nodup_cons.mp hnd
        refine ⟨rfl, store_same _ _ _, ?_⟩
        show DList _ _ (store _ before _ z) _ _
        rw [store_of_ne (hbl z mem_cons_self), store_of_ne (hxl z mem_cons_self)]
        refine hrest.congr (fun w hw => ?_) fun w hw => ?_
        · show store _ before _ w = _
          rw [store_of_ne (hbl w (mem_cons_of_mem _ hw)),
            store_of_ne (hxl w (mem_cons_of_mem _ hw))]
        · have hwz : some w ≠ some z := fun he => hzl (Option.some.inj he ▸ hw)
          show store _ (some z) _ w = _
          rw [store_of_ne hwz, store_of_ne (hxl w (mem_cons_of_mem _ hw))]
  | y :: l1, head, before, h, hx, hnd, _ => by
    obtain ⟨hhead, hprev, hrest⟩ := h
    obtain ⟨hyx, hxl⟩ := not_or.mp (mt mem_cons.mpr hx)
    obtain ⟨hy, hnd⟩ := nodup_cons.mp hnd
    have hyl : ∀ b ∈ x :: (l1 ++ l₂), some y ≠ some b := by
      intro b hb he
      rcases mem_cons.mp hb with rfl | hb
      · exact hyx (Option.some.inj he).symm
      · exact hy (Option.some.inj he ▸ hb)
    have ih := DList.insert hrest hxl hnd hyl
    have hyhead : some y ≠ l₂.head? := fun he =>
      hyl y (mem_cons_of_mem _ (mem_append_right _ (mem_of_head? he.symm))) rfl
    rw [getLast?_cons_or, if_neg (by simp)]
    refine ⟨hhead, ?_, ?_⟩
    · rw [store_of_ne hyhead, store_of_ne (hyl x mem_cons_self)]
      exact hprev
    · have hnext : store (store next (some x) l₂.head?) (l1.getLast?.or (some y)) (some x) y =
          if l1 = [] then some x else next y := by
        cases hlast : l1.getLast? with
        | none =>
          rw [if_pos (getLast?_eq_none_iff.mp hlast)]
          exact store_same _ _ _
        | some z =>
          have hz := mem_of_getLast? hlast
          rw [if_neg (ne_nil_of_mem hz), Option.some_or,
            store_of_ne (hyl z (mem_cons_of_mem _ (mem_append_left _ hz))),
            store_of_ne (hyl x mem_cons_self)]
      rw [hnext]
      exact ih
theorem DList.push (h : DList next prev head none l) (hnd : l.Nodup) (hx : x ∉ l) :
    DList (store next (some x) head) (store (store prev (some x) none) head (some x)) (some x) none
      (x :: l) := by
  have hins := DList.insert (show DList next prev head none ([] ++ l) from h) hx hnd (by simp)
  simpa [h.head_eq] using hins

theorem DList.append (h : DList next prev head before l) (hx : x ∉ l) (hnd : l.Nodup)
    (hb : ∀ b ∈ x :: l, before ≠ some b) :
    DList (store (store next (some x) none) (l.getLast?.or before) (some x))
      (store prev (some x) (l.getLast?.or before)) (if l = [] then some x else head) before
      (l ++ [x]) := by
  have hnil : DList next prev head before (l ++ []) := by
    rw [append_nil]
    exact h
  have hins := DList.insert hnil (by simpa using hx) (by simpa using hnd) (by simpa using hb)
  simpa using hins

theorem DList.getLast?_erase : ∀ {l : List α} {head before : Option α},
    DList next prev head before l → l.Nodup → x ∈ l →
      (l.erase x).getLast?.or before =
        if l.getLast? = some x then prev x else l.getLast?.or before
  | [], _, _, _, _, hx => absurd hx not_mem_nil
  | y :: l, head, before, h, hnd, hx => by
    obtain ⟨-, hprev, hrest⟩ := h
    obtain ⟨hy, hnd⟩ := nodup_cons.mp hnd
    by_cases hyx : y = x
    · subst hyx
      rw [erase_cons_head]
      cases hlast : l.getLast? with
      | none =>
        rw [getLast?_cons, hlast, Option.getD_none, if_pos rfl, hprev]
        rfl
      | some z =>
        have hz := mem_of_getLast? hlast
        have hzy : some z ≠ some y := fun he => hy (Option.some.inj he ▸ hz)
        rw [getLast?_cons, hlast, Option.getD_some, if_neg hzy]
    · have hx' : x ∈ l := (mem_cons.mp hx).resolve_left fun he => hyx he.symm
      rw [erase_cons_tail (by simpa using hyx), getLast?_cons_or,
        DList.getLast?_erase hrest hnd hx', getLast?_cons_or, getLast?_cons]
      cases hlast : l.getLast? with
      | none => exact absurd hx' (getLast?_eq_none_iff.mp hlast ▸ not_mem_nil)
      | some z => rfl

omit [DecidableEq α] in
theorem DList.prev_none (h : DList next prev head none l) (hx : x ∈ l) :
    prev x = none ↔ head = some x := by
  rcases h.prev_mem hx with ⟨hp, hhead⟩ | ⟨y, -, hp⟩
  · exact iff_of_true hp hhead
  · refine iff_of_false (by simp [hp]) fun hhead => ?_
    rw [hhead] at h
    cases h.prev_of_head.symm.trans hp

omit [DecidableEq α] in
theorem DList.next_none : ∀ {l : List α} {head before : Option α}, DList next prev head before l →
    l.Nodup → x ∈ l → (next x = none ↔ l.getLast? = some x)
  | [], _, _, _, _, hx => absurd hx not_mem_nil
  | y :: l, _, _, h, hnd, hx => by
    obtain ⟨hy, hnd⟩ := nodup_cons.mp hnd
    by_cases hyx : y = x
    · subst hyx
      cases l with
      | nil => exact iff_of_true h.2.2 rfl
      | cons z l =>
        refine iff_of_false (by simp [h.2.2.1]) fun hlast => hy ?_
        exact mem_of_getLast? hlast
    · have hx' : x ∈ l := (mem_cons.mp hx).resolve_left fun he => hyx he.symm
      rw [DList.next_none h.2.2 hnd hx']
      cases l with
      | nil => exact absurd hx' not_mem_nil
      | cons z l => rw [getLast?_cons_cons]

end AtomOs.Lib
