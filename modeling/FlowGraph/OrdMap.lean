/-! # Finite maps in key order

A graph keeps the phi functions of a block by variable name and the arguments of a phi function by
edge, and shows both in that order.  `OrdMap` is such a map: the list of its entries, with the proof
that the keys strictly increase.  Two maps with the same entries are therefore equal, and a key
occurs once.
-/
namespace FlowGraph

/-- **Keys.**  What a key type owes the map: its order is strict, and of two different keys one is
the smaller. -/
class OrderedKey (κ : Type) [LT κ] : Prop where
  irrefl {a : κ} : ¬ a < a
  trans {a b c : κ} : a < b → b < c → a < c
  connected {a b : κ} : ¬ a < b → a ≠ b → b < a

instance : OrderedKey String where
  irrefl := String.lt_irrefl _
  trans := String.lt_trans
  connected h hne :=
    Decidable.byContradiction fun h' =>
      hne (String.le_antisymm (String.not_lt.1 h') (String.not_lt.1 h))

/-- **A map in key order**, as the list of its entries. -/
@[ext]
structure OrdMap (κ α : Type) [LT κ] where
  /-- The entries, smallest key first. -/
  entries : List (κ × α)
  /-- Every key is smaller than those after it. -/
  sorted : entries.Pairwise fun a b => a.1 < b.1

namespace OrdMap

variable {κ α : Type} [LT κ]

instance [DecidableEq κ] [DecidableEq α] : DecidableEq (OrdMap κ α) := fun m n =>
  decidable_of_iff (m.entries = n.entries) OrdMap.ext_iff.symm

/-- The map without entries. -/
def empty : OrdMap κ α := ⟨[], .nil⟩

instance : Inhabited (OrdMap κ α) := ⟨empty⟩

/-- Whether there is no entry. -/
def isEmpty (m : OrdMap κ α) : Bool := m.entries.isEmpty

/-- The number of entries. -/
def size (m : OrdMap κ α) : Nat := m.entries.length

/-- The keys in increasing order. -/
def keys (m : OrdMap κ α) : List κ := m.entries.map (·.1)

/-- The value of a key, if it has one. -/
def get? [BEq κ] (m : OrdMap κ α) (k : κ) : Option α := m.entries.lookup k

/-- Whether a key has a value. -/
def contains [BEq κ] (m : OrdMap κ α) (k : κ) : Bool := (m.get? k).isSome

/-! ### Insertion -/

/-- Puts an entry in its place of a sorted list, over an entry with the same key. -/
def insertEntry [DecidableEq κ] [DecidableLT κ] (k : κ) (a : α) : List (κ × α) → List (κ × α)
  | [] => [(k, a)]
  | e :: es =>
    if k < e.1 then (k, a) :: e :: es
    else if k = e.1 then (k, a) :: es
    else e :: insertEntry k a es

theorem mem_insertEntry [DecidableEq κ] [DecidableLT κ] {k : κ} {a : α} {e : κ × α}
    {es : List (κ × α)} (h : e ∈ insertEntry k a es) : e = (k, a) ∨ e ∈ es := by
  induction es with
  | nil => simpa [insertEntry] using h
  | cons f fs ih =>
    rw [insertEntry] at h
    split at h
    · simpa using h
    · split at h <;> simp only [List.mem_cons] at h ⊢
      · exact h.imp_right .inr
      · rcases h with h | h
        · exact .inr (.inl h)
        · exact (ih h).imp_right .inr

theorem pairwise_insertEntry [DecidableEq κ] [DecidableLT κ] [OrderedKey κ] (k : κ) (a : α)
    {es : List (κ × α)} (h : es.Pairwise fun a b => a.1 < b.1) :
    (insertEntry k a es).Pairwise fun a b => a.1 < b.1 := by
  induction es with
  | nil => simp [insertEntry]
  | cons e es ih =>
    obtain ⟨he, hes⟩ := List.pairwise_cons.1 h
    rw [insertEntry]
    split
    · rename_i hlt
      refine List.pairwise_cons.2 ⟨fun f hf => ?_, h⟩
      rcases List.mem_cons.1 hf with rfl | hf
      · exact hlt
      · exact OrderedKey.trans hlt (he f hf)
    · split
      · rename_i _ heq
        exact List.pairwise_cons.2 ⟨fun f hf => by rw [heq]; exact he f hf, hes⟩
      · rename_i hlt hne
        refine List.pairwise_cons.2 ⟨fun f hf => ?_, ih hes⟩
        rcases mem_insertEntry hf with rfl | hf
        · exact OrderedKey.connected hlt hne
        · exact he f hf

/-- Gives a key a value, over the one it had. -/
def insert [DecidableEq κ] [DecidableLT κ] [OrderedKey κ] (m : OrdMap κ α) (k : κ) (a : α) :
    OrdMap κ α :=
  ⟨insertEntry k a m.entries, pairwise_insertEntry k a m.sorted⟩

/-- The map of a list of entries, a later entry over an earlier one. -/
def ofList [DecidableEq κ] [DecidableLT κ] [OrderedKey κ] (es : List (κ × α)) : OrdMap κ α :=
  es.foldl (fun m e => m.insert e.1 e.2) empty

/-! ### Removal and change of values -/

/-- Takes the entry of a key out. -/
def erase [DecidableEq κ] (m : OrdMap κ α) (k : κ) : OrdMap κ α :=
  ⟨m.entries.filter (·.1 ≠ k), m.sorted.filter _⟩

/-- Changes every value, with its key in view. -/
def mapValues {β : Type} (f : κ → α → β) (m : OrdMap κ α) : OrdMap κ β :=
  ⟨m.entries.map fun e => (e.1, f e.1 e.2), m.sorted.map _ fun _ _ h => h⟩

end OrdMap
end FlowGraph
