import CustomIsa.Text.Line
/-! # Pieces of text

A text that is put together from pieces without blanks and separators is taken apart into the same
pieces: trimming removes what stands around a piece and nothing of it, and splitting finds the
separators. -/
namespace CustomIsa.Text

/-! ## Trimming -/

/-- The text neither starts nor ends with a blank. -/
def Tight (cs : List Char) : Prop :=
  (∀ c ∈ cs.head?, isBlank c = false) ∧ ∀ c ∈ cs.getLast?, isBlank c = false

theorem tight_of_forall {cs : List Char} (h : ∀ c ∈ cs, isBlank c = false) : Tight cs :=
  ⟨fun c hc => h c (List.mem_of_mem_head? hc), fun c hc => h c (List.mem_of_mem_getLast? hc)⟩

theorem dropWhile_of_head {p : Char → Bool} {cs : List Char} (h : ∀ c ∈ cs.head?, p c = false) :
    cs.dropWhile p = cs := by
  cases cs with
  | nil => rfl
  | cons c cs => rw [List.dropWhile_cons, h c rfl, if_neg Bool.false_ne_true]

theorem trimChars_of_tight {cs : List Char} (h : Tight cs) : trimChars cs = cs := by
  have hlast : ∀ c ∈ cs.reverse.head?, isBlank c = false := by
    rw [List.head?_reverse]
    exact h.2
  rw [trimChars, dropWhile_of_head h.1, dropWhile_of_head hlast, List.reverse_reverse]

/-- What lies between the two ends of a text does not matter. -/
theorem tight_append {cs ds : List Char} (hcs : cs ≠ []) (hc : Tight cs) (mid : List Char)
    (hds : ds ≠ []) (hd : Tight ds) : Tight (cs ++ (mid ++ ds)) := by
  constructor
  · cases cs with
    | nil => exact absurd rfl hcs
    | cons c cs => exact hc.1
  · intro c hmem
    have hlast := List.getLast?_eq_some_getLast hds
    rw [List.getLast?_append, List.getLast?_append, hlast, Option.some_or, Option.some_or,
      ← hlast] at hmem
    exact hd.2 c hmem

theorem trimChars_cons_blank {c : Char} (h : isBlank c = true) (cs : List Char) :
    trimChars (c :: cs) = trimChars cs := by
  rw [trimChars, List.dropWhile_cons, if_pos h, ← trimChars]

theorem mem_of_mem_trimChars {cs : List Char} {c : Char} (h : c ∈ trimChars cs) : c ∈ cs := by
  rw [trimChars, List.mem_reverse] at h
  have hmem := (List.dropWhile_sublist _).mem h
  exact (List.dropWhile_sublist _).mem (List.mem_reverse.mp hmem)

theorem filter_dropWhile_blank (cs : List Char) :
    (cs.dropWhile isBlank).filter (fun c => !isBlank c) = cs.filter (fun c => !isBlank c) := by
  induction cs with
  | nil => rfl
  | cons c cs ih =>
    by_cases hc : isBlank c = true
    · rw [List.dropWhile_cons, if_pos hc, ih, List.filter_cons, if_neg (by simp [hc])]
    · rw [List.dropWhile_cons, if_neg hc]

/-- Trimming removes blanks only. -/
theorem filter_trimChars (cs : List Char) :
    (trimChars cs).filter (fun c => !isBlank c) = cs.filter (fun c => !isBlank c) := by
  rw [trimChars, List.filter_reverse, filter_dropWhile_blank, ← List.filter_reverse,
    List.reverse_reverse, filter_dropWhile_blank]

/-- The texts differ in blanks only. -/
def AgreeUpToBlanks (s t : String) : Prop :=
  s.toList.filter (fun c => !isBlank c) = t.toList.filter (fun c => !isBlank c)

instance (s t : String) : Decidable (AgreeUpToBlanks s t) := inferInstanceAs (Decidable (_ = _))

/-! ## Splitting -/

section
variable {p : Char → Bool} {l r cs : List Char} {c : Char}

theorem splitFirst_append (hl : ∀ d ∈ l, p d = false) (hc : p c = true) (r : List Char) :
    splitFirst p (l ++ c :: r) = some (l, r) := by
  induction l with
  | nil => rw [List.nil_append, splitFirst, if_pos hc]
  | cons d l ih =>
    obtain ⟨hd, hl⟩ := List.forall_mem_cons.mp hl
    rw [List.cons_append, splitFirst, hd, if_neg Bool.false_ne_true, ih hl]
    rfl

theorem splitFirst_eq_none_iff : splitFirst p cs = none ↔ ∀ d ∈ cs, p d = false := by
  induction cs with
  | nil => simp [splitFirst]
  | cons d cs ih =>
    rw [splitFirst, List.forall_mem_cons, ← ih]
    by_cases hd : p d = true
    · simp [hd]
    · simp [hd]

/-- The text is cut at a separator, and what stands before it has none. -/
theorem splitFirst_eq_some (h : splitFirst p cs = some (l, r)) :
    (∃ c, cs = l ++ c :: r) ∧ ∀ d ∈ l, p d = false := by
  induction cs generalizing l r with
  | nil => cases h
  | cons d cs ih =>
    rw [splitFirst] at h
    split at h
    · obtain ⟨rfl, rfl⟩ := Prod.mk.inj (Option.some.inj h)
      exact ⟨⟨d, rfl⟩, fun _ hd => (nomatch hd)⟩
    · rename_i hd
      obtain ⟨⟨l', r'⟩, hsplit, heq⟩ := Option.map_eq_some_iff.mp h
      obtain ⟨rfl, rfl⟩ := Prod.mk.inj heq
      obtain ⟨⟨c, rfl⟩, hl⟩ := ih hsplit
      exact ⟨⟨c, rfl⟩, List.forall_mem_cons.mpr ⟨Bool.eq_false_iff.mpr hd, hl⟩⟩

theorem splitAll_of_forall (h : ∀ d ∈ cs, p d = false) : splitAll p cs = [cs] := by
  induction cs with
  | nil => rfl
  | cons d cs ih =>
    obtain ⟨hd, hcs⟩ := List.forall_mem_cons.mp h
    rw [splitAll, hd, if_neg Bool.false_ne_true, ih hcs]

theorem splitAll_append (hl : ∀ d ∈ l, p d = false) (hc : p c = true) (r : List Char) :
    splitAll p (l ++ c :: r) = l :: splitAll p r := by
  induction l with
  | nil => rw [List.nil_append, splitAll, if_pos hc]
  | cons d l ih =>
    obtain ⟨hd, hl⟩ := List.forall_mem_cons.mp hl
    rw [List.cons_append, splitAll, hd, if_neg Bool.false_ne_true, ih hl]

/-- A blank before a text does not show in its trimmed pieces. -/
theorem map_trimChars_splitAll_cons (hblank : isBlank c = true) (hc : p c = false)
    (cs : List Char) :
    (splitAll p (c :: cs)).map trimChars = (splitAll p cs).map trimChars := by
  rw [splitAll, hc, if_neg Bool.false_ne_true]
  split
  · rename_i hnil
    exact absurd hnil (splitAll_ne_nil p cs)
  · rename_i w ws hcons
    rw [hcons, List.map_cons, List.map_cons, trimChars_cons_blank hblank]

end

end CustomIsa.Text
