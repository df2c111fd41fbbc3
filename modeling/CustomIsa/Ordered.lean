/-! # Sorting, and maps from names

Insertion sort goes by a test that says which of two elements may come first. The result has the
same elements (`sort_perm`), and elements of which each may come before the other keep their places,
since an element is put before the first one that it may precede.

A finite map from names to values is kept as a list in strictly increasing order of the names. Order
is part of the type: two maps with the same bindings are the same list, and whoever lists a map sees
the names in order. -/
namespace CustomIsa

/-! ## Sorting -/

namespace Sorting
variable {α : Type}

/-- Puts an element before the first one that it may precede. -/
def insert (le : α → α → Bool) (a : α) : List α → List α
  | [] => [a]
  | b :: bs => if le a b then a :: b :: bs else b :: insert le a bs

/-- Sorts a list. -/
def sort (le : α → α → Bool) : List α → List α
  | [] => []
  | a :: as => insert le a (sort le as)

theorem insert_perm (le : α → α → Bool) (a : α) (l : List α) : (insert le a l).Perm (a :: l) := by
  induction l with
  | nil => exact .refl _
  | cons b bs ih =>
    rw [insert]
    split
    · exact .refl _
    · exact (ih.cons b).trans (.swap a b bs)

theorem sort_perm (le : α → α → Bool) (l : List α) : (sort le l).Perm l := by
  induction l with
  | nil => exact .refl _
  | cons a as ih => exact (insert_perm le a (sort le as)).trans (ih.cons a)

end Sorting

/-! ## Maps from names -/

/-- A map from names to values, listed in strictly increasing order of the names. -/
structure NameMap (β : Type) where
  toList : List (String × β)
  sorted : toList.Pairwise fun a b => a.1 < b.1

namespace NameMap
variable {β : Type}

/-- Puts a binding in its place in a list of bindings; one of the same name is replaced. -/
def insertEntry (name : String) (value : β) : List (String × β) → List (String × β)
  | [] => [(name, value)]
  | e :: es =>
    if name < e.1 then (name, value) :: e :: es
    else if name = e.1 then (name, value) :: es
    else e :: insertEntry name value es

theorem mem_insertEntry {name : String} {value : β} {x : String × β} {es : List (String × β)}
    (h : x ∈ insertEntry name value es) : x = (name, value) ∨ x ∈ es := by
  induction es with
  | nil => simpa [insertEntry] using h
  | cons e es ih =>
    rw [insertEntry] at h
    split at h
    · simpa using h
    · split at h
      · rcases List.mem_cons.1 h with h | h
        · exact .inl h
        · exact .inr (List.mem_cons_of_mem _ h)
      · rcases List.mem_cons.1 h with h | h
        · exact .inr (h ▸ List.mem_cons_self)
        · exact (ih h).imp_right (List.mem_cons_of_mem _)

theorem pairwise_insertEntry (name : String) (value : β) {es : List (String × β)}
    (h : es.Pairwise fun a b => a.1 < b.1) :
    (insertEntry name value es).Pairwise fun a b => a.1 < b.1 := by
  induction es with
  | nil => simp [insertEntry]
  | cons e es ih =>
    obtain ⟨he, hes⟩ := List.pairwise_cons.1 h
    rw [insertEntry]
    split
    · rename_i hlt
      refine List.pairwise_cons.2 ⟨fun x hx => ?_, h⟩
      rcases List.mem_cons.1 hx with rfl | hx
      · exact hlt
      · exact String.lt_trans hlt (he x hx)
    · split
      · rename_i heq
        refine List.pairwise_cons.2 ⟨fun x hx => ?_, hes⟩
        rw [heq]
        exact he x hx
      · rename_i hge hne
        refine List.pairwise_cons.2 ⟨fun x hx => ?_, ih hes⟩
        rcases mem_insertEntry hx with rfl | hx
        · exact Classical.byContradiction fun hlt => hne (String.le_antisymm hlt hge)
        · exact he x hx

/-- The map with no bindings. -/
def empty : NameMap β := ⟨[], .nil⟩

instance : EmptyCollection (NameMap β) := ⟨empty⟩
instance : Inhabited (NameMap β) := ⟨empty⟩

/-- Binds a name, in place of what it was bound to before. -/
def insert (m : NameMap β) (name : String) (value : β) : NameMap β :=
  ⟨insertEntry name value m.toList, pairwise_insertEntry name value m.sorted⟩

/-- What a name is bound to. -/
def get? (m : NameMap β) (name : String) : Option β := m.toList.lookup name

/-- Whether a name is bound. -/
def contains (m : NameMap β) (name : String) : Bool := (m.get? name).isSome

/-- The bound names, in order. -/
def names (m : NameMap β) : List String := m.toList.map Prod.fst

/-- The values, in the order of their names. -/
def values (m : NameMap β) : List β := m.toList.map Prod.snd

/-- How many names are bound. -/
def size (m : NameMap β) : Nat := m.toList.length

/-- Binds the names of a list one after another; the last binding of a name counts. -/
def ofList (es : List (String × β)) : NameMap β :=
  es.foldl (fun m e => m.insert e.1 e.2) empty

end NameMap

/-- The operand values of one instruction: register numbers and immediates, by operand name. -/
abbrev Bindings := NameMap Int

end CustomIsa
