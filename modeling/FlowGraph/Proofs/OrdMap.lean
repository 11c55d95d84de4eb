import FlowGraph.OrdMap

/-! # Maps in key order: what they hold

A map is known by its values: `get?` after each operation, and two maps with the same values are
equal.
-/
namespace FlowGraph
namespace OrdMap

variable {κ α : Type} [LT κ]

section Lookup
variable [BEq κ] [LawfulBEq κ]

omit [LT κ] in
theorem mem_of_lookup_eq_some {es : List (κ × α)} {k : κ} {a : α}
    (h : es.lookup k = some a) : (k, a) ∈ es := by
  induction es with
  | nil => cases h
  | cons e es ih =>
    obtain ⟨k', a'⟩ := e
    rw [List.lookup_cons] at h
    split at h
    · rename_i hk
      cases h
      rw [eq_of_beq hk]
      exact List.mem_cons_self ..
    · exact List.mem_cons_of_mem _ (ih h)

omit [LT κ] in
theorem lookup_eq_none_iff {es : List (κ × α)} {k : κ} :
    es.lookup k = none ↔ ∀ a, (k, a) ∉ es := by
  induction es with
  | nil => simp
  | cons e es ih =>
    obtain ⟨k', a'⟩ := e
    by_cases hk : k = k'
    · subst hk
      simp only [List.lookup_cons_self, reduceCtorEq, List.mem_cons, not_or, false_iff]
      exact fun h => (h a').1 rfl
    · simp only [List.lookup_cons, beq_eq_false_iff_ne.mpr hk, ih, List.mem_cons, Prod.mk.injEq, hk,
        false_and, false_or]

variable [OrderedKey κ]

/-- An entry of a sorted list is found by its key. -/
theorem lookup_eq_some_of_mem {es : List (κ × α)} {k : κ} {a : α}
    (hs : es.Pairwise fun a b => a.1 < b.1) (h : (k, a) ∈ es) : es.lookup k = some a := by
  induction es with
  | nil => cases h
  | cons e es ih =>
    obtain ⟨he, hes⟩ := List.pairwise_cons.mp hs
    rcases List.mem_cons.mp h with rfl | hmem
    · exact List.lookup_cons_self
    · have hne : (k == e.1) = false := by
        refine beq_eq_false_iff_ne.mpr fun hk => ?_
        have hlt := he (k, a) hmem
        rw [hk] at hlt
        exact OrderedKey.irrefl hlt
      obtain ⟨k', a'⟩ := e
      rw [List.lookup_cons, hne]
      exact ih hes hmem

/-- The values of a map are its entries. -/
theorem get?_eq_some_iff {m : OrdMap κ α} {k : κ} {a : α} :
    m.get? k = some a ↔ (k, a) ∈ m.entries :=
  ⟨mem_of_lookup_eq_some, lookup_eq_some_of_mem m.sorted⟩

theorem mem_keys_iff {m : OrdMap κ α} {k : κ} : k ∈ m.keys ↔ ∃ a, m.get? k = some a := by
  simp [keys, get?_eq_some_iff]

omit [LawfulBEq κ] [OrderedKey κ] in
theorem contains_iff {m : OrdMap κ α} {k : κ} : m.contains k = true ↔ ∃ a, m.get? k = some a :=
  Option.isSome_iff_exists

theorem contains_iff_mem_keys {m : OrdMap κ α} {k : κ} : m.contains k = true ↔ k ∈ m.keys := by
  rw [contains_iff, mem_keys_iff]

end Lookup

theorem nodup_keys [OrderedKey κ] (m : OrdMap κ α) : m.keys.Nodup := by
  refine List.pairwise_map.mpr (m.sorted.imp fun {a b} h he => ?_)
  rw [he] at h
  exact OrderedKey.irrefl h

@[simp] theorem get?_empty [BEq κ] (k : κ) : (empty : OrdMap κ α).get? k = none := rfl

@[simp] theorem isEmpty_empty : (empty : OrdMap κ α).isEmpty = true := rfl

theorem isEmpty_iff {m : OrdMap κ α} : m.isEmpty = true ↔ m = empty := by
  rw [isEmpty, List.isEmpty_iff, OrdMap.ext_iff]
  rfl

/-- Two sorted lists with the same entries are the same list. -/
theorem entries_eq_of_mem_iff [OrderedKey κ] {es fs : List (κ × α)}
    (he : es.Pairwise fun a b => a.1 < b.1) (hf : fs.Pairwise fun a b => a.1 < b.1)
    (h : ∀ p, p ∈ es ↔ p ∈ fs) : es = fs := by
  induction es generalizing fs with
  | nil =>
    cases fs with
    | nil => rfl
    | cons f fs => exact absurd ((h f).mpr (List.mem_cons_self ..)) List.not_mem_nil
  | cons e es ih =>
    cases fs with
    | nil => exact absurd ((h e).mp (List.mem_cons_self ..)) List.not_mem_nil
    | cons f fs =>
      obtain ⟨he1, he2⟩ := List.pairwise_cons.mp he
      obtain ⟨hf1, hf2⟩ := List.pairwise_cons.mp hf
      have heq : e = f := by
        rcases List.mem_cons.mp ((h e).mp (List.mem_cons_self ..)) with heq | hin
        · exact heq
        · rcases List.mem_cons.mp ((h f).mpr (List.mem_cons_self ..)) with heq | hin'
          · exact heq.symm
          · exact absurd (OrderedKey.trans (he1 f hin') (hf1 e hin)) OrderedKey.irrefl
      subst heq
      have hnot : ∀ {gs : List (κ × α)}, (∀ b ∈ gs, e.1 < b.1) → e ∉ gs :=
        fun hg hin => OrderedKey.irrefl (hg e hin)
      refine congrArg (e :: ·) (ih he2 hf2 fun p => ⟨fun hp => ?_, fun hp => ?_⟩)
      · rcases List.mem_cons.mp ((h p).mp (List.mem_cons_of_mem _ hp)) with rfl | hin
        · exact absurd hp (hnot he1)
        · exact hin
      · rcases List.mem_cons.mp ((h p).mpr (List.mem_cons_of_mem _ hp)) with rfl | hin
        · exact absurd hp (hnot hf1)
        · exact hin

/-- **A map is known by its values.** -/
theorem ext_get? [BEq κ] [LawfulBEq κ] [OrderedKey κ] {m n : OrdMap κ α}
    (h : ∀ k, m.get? k = n.get? k) : m = n := by
  refine OrdMap.ext (entries_eq_of_mem_iff m.sorted n.sorted fun p => ?_)
  rw [← get?_eq_some_iff, ← get?_eq_some_iff, h]

/-! ### Operations -/

section Operations
variable [DecidableEq κ] [OrderedKey κ]

omit [OrderedKey κ] in
theorem mem_insertEntry_self [DecidableLT κ] (k : κ) (a : α) (es : List (κ × α)) :
    (k, a) ∈ insertEntry k a es := by
  induction es with
  | nil => exact List.mem_singleton.mpr rfl
  | cons e es ih =>
    rw [insertEntry]
    split
    · exact List.mem_cons_self ..
    · split
      · exact List.mem_cons_self ..
      · exact List.mem_cons_of_mem _ ih

omit [OrderedKey κ] in
theorem mem_insertEntry_of_ne [DecidableLT κ] {k : κ} {a : α} {e : κ × α} {es : List (κ × α)}
    (h : e ∈ es) (hne : e.1 ≠ k) : e ∈ insertEntry k a es := by
  induction es with
  | nil => cases h
  | cons f fs ih =>
    rw [insertEntry]
    split
    · exact List.mem_cons_of_mem _ h
    · split
      · rename_i _ heq
        rcases List.mem_cons.mp h with rfl | h
        · exact absurd heq.symm hne
        · exact List.mem_cons_of_mem _ h
      · rcases List.mem_cons.mp h with rfl | h
        · exact List.mem_cons_self ..
        · exact List.mem_cons_of_mem _ (ih h)

@[simp] theorem get?_insert_self [DecidableLT κ] (m : OrdMap κ α) (k : κ) (a : α) :
    (m.insert k a).get? k = some a :=
  get?_eq_some_iff.mpr (mem_insertEntry_self k a m.entries)

theorem get?_insert_of_ne [DecidableLT κ] (m : OrdMap κ α) {k k' : κ} (a : α) (h : k' ≠ k) :
    (m.insert k a).get? k' = m.get? k' := by
  refine Option.ext fun b => ?_
  rw [get?_eq_some_iff, get?_eq_some_iff]
  constructor
  · intro hb
    rcases mem_insertEntry hb with heq | hb
    · exact absurd (congrArg Prod.fst heq) h
    · exact hb
  · exact fun hb => mem_insertEntry_of_ne hb h

theorem get?_insert [DecidableLT κ] (m : OrdMap κ α) (k k' : κ) (a : α) :
    (m.insert k a).get? k' = if k' = k then some a else m.get? k' := by
  split
  · rename_i h
    rw [h, get?_insert_self]
  · rename_i h
    exact get?_insert_of_ne m a h

/-- Entries with increasing keys, put into a map one after the other. -/
theorem get?_foldl_insert [DecidableLT κ] {β : Type} (f : κ → α → β) {es : List (κ × α)}
    (hs : es.Pairwise fun a b => a.1 < b.1) (m : OrdMap κ β) (k : κ) :
    (es.foldl (fun m x => m.insert x.1 (f x.1 x.2)) m).get? k =
      ((es.lookup k).map (f k)).or (m.get? k) := by
  induction es generalizing m with
  | nil => rfl
  | cons x es ih =>
    obtain ⟨k', a⟩ := x
    obtain ⟨hlt, hs⟩ := List.pairwise_cons.mp hs
    rw [List.foldl_cons, ih hs, get?_insert, List.lookup_cons]
    by_cases hk : k = k'
    · subst hk
      have hnone : es.lookup k = none := lookup_eq_none_iff.mpr fun b hin =>
        OrderedKey.irrefl (hlt (k, b) hin)
      simp [hnone]
    · rw [if_neg hk, beq_false_of_ne hk]

theorem get?_erase (m : OrdMap κ α) (k k' : κ) :
    (m.erase k).get? k' = if k' = k then none else m.get? k' := by
  refine Option.ext fun b => ?_
  rw [get?_eq_some_iff, erase, List.mem_filter, ← get?_eq_some_iff]
  by_cases h : k' = k <;> simp [h]

@[simp] theorem get?_mapValues {β : Type} (f : κ → α → β) (m : OrdMap κ α) (k : κ) :
    (m.mapValues f).get? k = (m.get? k).map (f k) := by
  refine Option.ext fun b => ?_
  rw [get?_eq_some_iff, Option.map_eq_some_iff]
  simp only [mapValues, List.mem_map, Prod.exists, Prod.mk.injEq]
  constructor
  · rintro ⟨k', a, hmem, rfl, rfl⟩
    exact ⟨a, get?_eq_some_iff.mpr hmem, rfl⟩
  · rintro ⟨a, ha, rfl⟩
    exact ⟨k, a, get?_eq_some_iff.mp ha, rfl, rfl⟩

omit [DecidableEq κ] [OrderedKey κ] in
@[simp] theorem keys_mapValues {β : Type} (f : κ → α → β) (m : OrdMap κ α) :
    (m.mapValues f).keys = m.keys := by
  simp [keys, mapValues, Function.comp_def]

omit [DecidableEq κ] [OrderedKey κ] in
@[simp] theorem isEmpty_mapValues {β : Type} (f : κ → α → β) (m : OrdMap κ α) :
    (m.mapValues f).isEmpty = m.isEmpty := by
  simp [isEmpty, mapValues]

omit [DecidableEq κ] [OrderedKey κ] in
@[simp] theorem mapValues_empty {β : Type} (f : κ → α → β) :
    (empty : OrdMap κ α).mapValues f = empty := rfl

/-- The values of the map of a list of entries: the last entry of a key counts. -/
theorem mem_keys_ofList [DecidableLT κ] {es : List (κ × α)} {k : κ} :
    k ∈ (ofList es).keys ↔ k ∈ es.map (·.1) := by
  suffices h : ∀ (es : List (κ × α)) (m : OrdMap κ α),
      k ∈ (es.foldl (fun m e => m.insert e.1 e.2) m).keys ↔ k ∈ m.keys ∨ k ∈ es.map (·.1) by
    rw [ofList, h]
    simp [keys, empty]
  intro es
  induction es with
  | nil => simp
  | cons e es ih =>
    intro m
    rw [List.foldl_cons, ih, List.map_cons, List.mem_cons, mem_keys_iff, mem_keys_iff]
    by_cases h : k = e.1
    · subst h
      simp
    · simp [get?_insert_of_ne m e.2 h, h]

end Operations
end OrdMap
end FlowGraph
