import CustomIsa.Ordered
/-! # Steps that may fail, sorting, and maps from names

A sequence of steps succeeds if each step does, on the results of those before it.

A sort by a total and transitive test puts every element before those that it may precede, so the
first element with a property may precede all others that have it.

A map is determined by what its names are bound to (`NameMap.ext_get?`), and each way of building
one is described by the lookups in it. -/
namespace CustomIsa

/-! ## Steps that may fail -/

section
variable {ε α β : Type}

theorem bind_eq_ok {x : Except ε α} {f : α → Except ε β} {b : β} (h : (x >>= f) = .ok b) :
    ∃ a, x = .ok a ∧ f a = .ok b := by
  cases x with
  | error e => cases h
  | ok a => exact ⟨a, rfl, h⟩

theorem bind_eq_error {x : Except ε α} {f : α → Except ε β} {e : ε} (h : (x >>= f) = .error e) :
    x = .error e ∨ ∃ a, x = .ok a ∧ f a = .error e := by
  cases x with
  | error e' => exact .inl (congrArg Except.error (Except.error.inj h))
  | ok a => exact .inr ⟨a, rfl, h⟩

/-- A sequence of steps succeeds exactly if the first step does, and the others on its result. -/
theorem exists_bind_eq_ok {x : Except ε α} {f : α → Except ε β} :
    (∃ b, (x >>= f) = .ok b) ↔ ∃ a, x = .ok a ∧ ∃ b, f a = .ok b := by
  constructor
  · rintro ⟨b, h⟩
    obtain ⟨a, hx, hf⟩ := bind_eq_ok h
    exact ⟨a, hx, b, hf⟩
  · rintro ⟨a, rfl, b, hf⟩
    exact ⟨b, hf⟩

theorem map_eq_ok {x : Except ε α} {f : α → β} {b : β} (h : x.map f = .ok b) :
    ∃ a, x = .ok a ∧ f a = b := by
  cases x with
  | error e => cases h
  | ok a => exact ⟨a, rfl, Except.ok.inj h⟩

theorem map_eq_error {x : Except ε α} {f : α → β} {e : ε} (h : x.map f = .error e) :
    x = .error e := by
  cases x with
  | error e' => exact congrArg Except.error (Except.error.inj h)
  | ok a => cases h

theorem eq_ok_of_toOption {x : Except ε α} {a : α} (h : x.toOption = some a) :
    x = .ok a := by
  cases x with
  | error e => cases h
  | ok b => rw [Option.some.inj h]

end

/-! ## Sorting -/

namespace Sorting
variable {α : Type} {le : α → α → Bool}

theorem pairwise_insert (htotal : ∀ a b, le a b = true ∨ le b a = true)
    (htrans : ∀ a b c, le a b = true → le b c = true → le a c = true) (a : α) {l : List α}
    (hl : l.Pairwise fun x y => le x y = true) :
    (insert le a l).Pairwise fun x y => le x y = true := by
  induction l with
  | nil => simp [insert]
  | cons b l ih =>
    obtain ⟨hb, htail⟩ := List.pairwise_cons.mp hl
    rw [insert]
    split
    · rename_i hab
      refine List.pairwise_cons.mpr ⟨fun x hx => ?_, hl⟩
      rcases List.mem_cons.mp hx with rfl | hx
      · exact hab
      · exact htrans a b x hab (hb x hx)
    · rename_i hab
      refine List.pairwise_cons.mpr ⟨fun x hx => ?_, ih htail⟩
      rcases List.mem_cons.mp ((insert_perm le a l).mem_iff.mp hx) with rfl | hx
      · exact (htotal x b).resolve_left hab
      · exact hb x hx

theorem pairwise_sort (htotal : ∀ a b, le a b = true ∨ le b a = true)
    (htrans : ∀ a b c, le a b = true → le b c = true → le a c = true) (l : List α) :
    (sort le l).Pairwise fun x y => le x y = true := by
  induction l with
  | nil => exact .nil
  | cons a l ih => exact pairwise_insert htotal htrans a ih

/-- Sorting looks at elements only through the test. -/
theorem sort_map {β : Type} (f : β → α) (l : List β) :
    sort le (l.map f) = (sort (fun a b => le (f a) (f b)) l).map f := by
  have hinsert : ∀ (a : β) (l : List β),
      insert le (f a) (l.map f) = (insert (fun a b => le (f a) (f b)) a l).map f := by
    intro a l
    induction l with
    | nil => rfl
    | cons b l ih =>
      rw [List.map_cons, insert, insert]
      split
      · rfl
      · rw [ih, List.map_cons]
  induction l with
  | nil => rfl
  | cons a l ih => rw [List.map_cons, sort, sort, ih, hinsert]

theorem insert_congr {le' : α → α → Bool} {a : α} {l : List α} (h : ∀ b ∈ l, le a b = le' a b) :
    insert le a l = insert le' a l := by
  induction l with
  | nil => rfl
  | cons b l ih =>
    rw [insert, insert, h b List.mem_cons_self, ih fun x hx => h x (List.mem_cons_of_mem _ hx)]

/-- Tests that agree on the elements of a list sort it alike. -/
theorem sort_congr {le' : α → α → Bool} {l : List α}
    (h : ∀ a ∈ l, ∀ b ∈ l, le a b = le' a b) : sort le l = sort le' l := by
  induction l with
  | nil => rfl
  | cons a l ih =>
    rw [sort, sort,
      ih fun x hx y hy => h x (List.mem_cons_of_mem _ hx) y (List.mem_cons_of_mem _ hy)]
    refine insert_congr fun b hb => h a List.mem_cons_self b (List.mem_cons_of_mem _ ?_)
    exact (sort_perm le' l).mem_iff.mp hb

/-- The first element of a sorted list with a property may precede every other one that has it. -/
theorem le_of_find?_eq_some {p : α → Bool} {l : List α} (hl : l.Pairwise fun x y => le x y = true)
    {a b : α} (hfind : l.find? p = some a) (hb : b ∈ l) (hpb : p b = true) :
    a = b ∨ le a b = true := by
  induction l with
  | nil => cases hb
  | cons c l ih =>
    obtain ⟨hc, htail⟩ := List.pairwise_cons.mp hl
    rw [List.find?_cons] at hfind
    split at hfind
    · obtain rfl := Option.some.inj hfind
      rcases List.mem_cons.mp hb with rfl | hb
      · exact .inl rfl
      · exact .inr (hc b hb)
    · rename_i hpc
      rcases List.mem_cons.mp hb with rfl | hb
      · rw [hpb] at hpc
        cases hpc
      · exact ih htail hfind hb

end Sorting

/-! ## Maps from names -/

namespace NameMap
variable {κ β : Type} [DecidableEq κ]

theorem lookup_cons (e : κ × β) (es : List (κ × β)) (n : κ) :
    (e :: es).lookup n = if n = e.1 then some e.2 else es.lookup n := by
  obtain ⟨name, value⟩ := e
  rw [List.lookup_cons]
  by_cases h : n = name
  · rw [if_pos h, beq_iff_eq.mpr h]
  · rw [if_neg h, beq_eq_false_iff_ne.mpr h]

theorem lookup_insertEntry (name : String) (value : β) (es : List (String × β)) (n : String) :
    (insertEntry name value es).lookup n = if n = name then some value else es.lookup n := by
  induction es with
  | nil => rw [insertEntry, lookup_cons]
  | cons e es ih =>
    rw [insertEntry]
    split
    · rw [lookup_cons]
    · split
      · rename_i heq
        rw [lookup_cons, lookup_cons, heq]
        split <;> rfl
      · rename_i hne
        rw [lookup_cons, lookup_cons, ih]
        by_cases hn : n = name
        · rw [if_neg (hn ▸ hne), if_pos hn, if_pos hn]
        · rw [if_neg hn, if_neg hn]

@[simp] theorem get?_empty (n : String) : (empty : NameMap β).get? n = none := rfl

theorem get?_insert (m : NameMap β) (name : String) (value : β) (n : String) :
    (m.insert name value).get? n = if n = name then some value else m.get? n :=
  lookup_insertEntry name value m.toList n

/-- Binding the names of a list to what they are bound to in `m` gives `m` on those names and leaves
the others alone. -/
theorem get?_foldl_insert {m : NameMap β} {es : List (String × β)}
    (h : ∀ e ∈ es, m.get? e.1 = some e.2) (start : NameMap β) (n : String) :
    (es.foldl (fun acc e => acc.insert e.1 e.2) start).get? n =
      if n ∈ es.map Prod.fst then m.get? n else start.get? n := by
  induction es generalizing start with
  | nil => simp
  | cons e es ih =>
    have hes : ∀ x ∈ es, m.get? x.1 = some x.2 := fun x hx => h x (List.mem_cons_of_mem _ hx)
    rw [List.foldl_cons, ih hes, List.map_cons]
    by_cases hmem : n ∈ es.map Prod.fst
    · rw [if_pos hmem, if_pos (List.mem_cons_of_mem _ hmem)]
    · rw [if_neg hmem, get?_insert]
      by_cases hn : n = e.1
      · rw [if_pos hn, if_pos (hn ▸ List.mem_cons_self), hn, h e List.mem_cons_self]
      · rw [if_neg hn, if_neg]
        simp only [List.mem_cons, hn, hmem, or_self, not_false_eq_true]

theorem lookup_eq_none_iff (es : List (κ × β)) (n : κ) :
    es.lookup n = none ↔ n ∉ es.map Prod.fst := by
  induction es with
  | nil => simp
  | cons e es ih =>
    rw [lookup_cons, List.map_cons, List.mem_cons, not_or, ← ih]
    by_cases hn : n = e.1
    · simp [hn]
    · simp [hn]

theorem get?_eq_none_iff (m : NameMap β) (n : String) : m.get? n = none ↔ n ∉ m.names :=
  lookup_eq_none_iff m.toList n

/-- Sorted lists of bindings with the same lookups are equal. -/
theorem eq_of_lookup_eq {es fs : List (String × β)} (hes : es.Pairwise fun a b => a.1 < b.1)
    (hfs : fs.Pairwise fun a b => a.1 < b.1) (h : ∀ n, es.lookup n = fs.lookup n) : es = fs := by
  -- the heads agree: the smaller of two different head names would be bound on one side only
  have absent : ∀ {n : String} {gs : List (String × β)}, (∀ g ∈ gs, n < g.1) →
      gs.lookup n = none := by
    intro n gs hgs
    rw [lookup_eq_none_iff]
    intro hmem
    obtain ⟨g, hg, rfl⟩ := List.mem_map.mp hmem
    exact String.lt_irrefl _ (hgs g hg)
  induction es generalizing fs with
  | nil =>
    cases fs with
    | nil => rfl
    | cons f fs =>
      have hhead := h f.1
      rw [lookup_cons, if_pos rfl] at hhead
      cases hhead
  | cons e es ih =>
    obtain ⟨he, hes⟩ := List.pairwise_cons.mp hes
    cases fs with
    | nil =>
      have hhead := h e.1
      rw [lookup_cons, if_pos rfl] at hhead
      cases hhead
    | cons f fs =>
      obtain ⟨hf, hfs⟩ := List.pairwise_cons.mp hfs
      have hname : e.1 = f.1 := by
        apply Classical.byContradiction
        intro hne
        rcases Classical.em (e.1 < f.1) with hlt | hge
        · have hnone : (f :: fs).lookup e.1 = none := absent fun g hg => by
            rcases List.mem_cons.mp hg with rfl | hg
            · exact hlt
            · exact String.lt_trans hlt (hf g hg)
          rw [← h e.1, lookup_cons, if_pos rfl] at hnone
          cases hnone
        · have hlt : f.1 < e.1 :=
            Classical.byContradiction fun hn => hne (String.le_antisymm hn hge)
          have hnone : (e :: es).lookup f.1 = none := absent fun g hg => by
            rcases List.mem_cons.mp hg with rfl | hg
            · exact hlt
            · exact String.lt_trans hlt (he g hg)
          rw [h f.1, lookup_cons, if_pos rfl] at hnone
          cases hnone
      have hvalue : e.2 = f.2 := by
        have hhead := h e.1
        rw [lookup_cons, lookup_cons, if_pos rfl, if_pos hname] at hhead
        exact Option.some.inj hhead
      have hrest : ∀ n, es.lookup n = fs.lookup n := by
        intro n
        by_cases hn : n = e.1
        · rw [hn, absent he, absent (hname ▸ hf)]
        · have htail := h n
          rwa [lookup_cons, lookup_cons, if_neg hn, if_neg (hname ▸ hn)] at htail
      rw [ih hes hfs hrest, Prod.ext hname hvalue]

/-- **Two maps that bind every name alike are equal.** -/
theorem ext_get? {m m' : NameMap β} (h : ∀ n, m.get? n = m'.get? n) : m = m' := by
  cases m with | mk es hes =>
    cases m' with | mk fs hfs =>
      have heq : es = fs := eq_of_lookup_eq hes hfs h
      subst heq
      rfl

/-- A list of bindings of `m` that names all its names makes up `m`. -/
theorem ofList_eq {m : NameMap β} {es : List (String × β)} (h : ∀ e ∈ es, m.get? e.1 = some e.2)
    (hall : ∀ n ∈ m.names, n ∈ es.map Prod.fst) : ofList es = m := by
  apply ext_get?
  intro n
  rw [ofList, get?_foldl_insert h]
  split
  · rfl
  · rename_i hn
    rw [get?_empty, eq_comm, get?_eq_none_iff]
    exact fun hmem => hn (hall n hmem)

theorem mem_of_lookup {es : List (κ × β)} {n : κ} {v : β} (h : es.lookup n = some v) :
    (n, v) ∈ es := by
  induction es with
  | nil => cases h
  | cons e es ih =>
    rw [lookup_cons] at h
    by_cases hn : n = e.1
    · rw [if_pos hn] at h
      rw [hn, ← Option.some.inj h]
      exact List.mem_cons_self
    · rw [if_neg hn] at h
      exact List.mem_cons_of_mem _ (ih h)

/-- Where every key stands once, each is looked up with its own value. -/
theorem lookup_of_mem {es : List (κ × β)} (hnodup : (es.map Prod.fst).Nodup)
    {e : κ × β} (he : e ∈ es) : es.lookup e.1 = some e.2 := by
  induction es with
  | nil => cases he
  | cons f es ih =>
    rw [List.map_cons, List.nodup_cons] at hnodup
    rw [lookup_cons]
    rcases List.mem_cons.mp he with rfl | he
    · rw [if_pos rfl]
    · have hne : e.1 ≠ f.1 := fun heq => hnodup.1 (heq ▸ List.mem_map_of_mem he)
      rw [if_neg hne, ih hnodup.2 he]

theorem nodup_names (m : NameMap β) : m.names.Nodup := by
  refine List.pairwise_map.mpr (m.sorted.imp fun hlt heq => ?_)
  rw [heq] at hlt
  exact String.lt_irrefl _ hlt

theorem get?_of_mem (m : NameMap β) {e : String × β} (he : e ∈ m.toList) :
    m.get? e.1 = some e.2 :=
  lookup_of_mem m.nodup_names he

theorem get?_foldl_insert_of_not_mem {es : List (String × β)} {n : String}
    (h : n ∉ es.map Prod.fst) (start : NameMap β) :
    (es.foldl (fun acc e => acc.insert e.1 e.2) start).get? n = start.get? n := by
  induction es generalizing start with
  | nil => rfl
  | cons e es ih =>
    rw [List.map_cons, List.mem_cons, not_or] at h
    rw [List.foldl_cons, ih h.2, get?_insert, if_neg h.1]

/-- Binding names of their own one after another binds each of them to its value. -/
theorem get?_ofList {es : List (String × β)} (hnodup : (es.map Prod.fst).Nodup) {e : String × β}
    (he : e ∈ es) : (ofList es).get? e.1 = some e.2 := by
  rw [ofList]
  generalize (empty : NameMap β) = start
  induction es generalizing start with
  | nil => cases he
  | cons f es ih =>
    rw [List.map_cons, List.nodup_cons] at hnodup
    rw [List.foldl_cons]
    rcases List.mem_cons.mp he with rfl | he
    · rw [get?_foldl_insert_of_not_mem hnodup.1, get?_insert, if_pos rfl]
    · exact ih hnodup.2 he _

theorem mem_of_mem_names_ofList {es : List (String × β)} {n : String}
    (h : n ∈ (ofList es).names) : n ∈ es.map Prod.fst := by
  refine Classical.byContradiction fun hn => ?_
  have hnone : (ofList es).get? n = none := get?_foldl_insert_of_not_mem hn empty
  exact (get?_eq_none_iff _ _).mp hnone h

end NameMap
end CustomIsa
