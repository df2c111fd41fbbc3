import Mathlib.Data.List.Forall2
import CustomIsa.Canon.Basic
import CustomIsa.Proofs.Text.Numeral
/-! # Keys tell structures apart

The key of a canonical form lists its topmost operator and the keys below it, between parentheses
and with blanks in between. Reading a key from the left, `Key.cut` finds the end of its first item
by counting parentheses, so a text is put together from keys in one way only. Equal keys therefore
belong to the same operation over equal keys (`Canon.alike_of_key`), provided that the names of
variables have no blanks and parentheses in them. -/
namespace CustomIsa
namespace Key

/-- Cuts a text before the first blank or closing parenthesis outside of all parentheses, `depth` of
which are open at its start. -/
def cut (depth : Nat) : List Char → List Char × List Char
  | [] => ([], [])
  | c :: cs =>
    if depth = 0 ∧ (c = ' ' ∨ c = ')') then ([], c :: cs)
    else
      let rest :=
        cut (if c = '(' then depth + 1 else if c = ')' then depth - 1 else depth) cs
      (c :: rest.1, rest.2)

/-- The text is passed as a whole, at any depth. -/
def Item (s : List Char) : Prop :=
  ∀ depth rest, cut depth (s ++ rest) = (s ++ (cut depth rest).1, (cut depth rest).2)

/-- The text is passed as a whole inside of parentheses. -/
def Inner (s : List Char) : Prop :=
  ∀ depth rest, cut (depth + 1) (s ++ rest) =
    (s ++ (cut (depth + 1) rest).1, (cut (depth + 1) rest).2)

/-- The text has no blanks and no parentheses. -/
def Plain (s : List Char) : Prop := ∀ c ∈ s, c ≠ ' ' ∧ c ≠ '(' ∧ c ≠ ')'

instance (s : List Char) : Decidable (Plain s) := List.decidableBAll _ s

/-- The text is empty, or starts with a blank or closing parenthesis. -/
def Stops (r : List Char) : Prop := ∀ c cs, r = c :: cs → c = ' ' ∨ c = ')'

theorem Item.inner {s : List Char} (h : Item s) : Inner s := fun depth rest => h (depth + 1) rest

theorem Item.append {s t : List Char} (hs : Item s) (ht : Item t) : Item (s ++ t) := by
  intro depth rest
  rw [List.append_assoc, hs, ht, List.append_assoc]

theorem Inner.append {s t : List Char} (hs : Inner s) (ht : Inner t) : Inner (s ++ t) := by
  intro depth rest
  rw [List.append_assoc, hs, ht, List.append_assoc]

theorem Plain.item {s : List Char} (h : Plain s) : Item s := by
  induction s with
  | nil => exact fun _ _ => rfl
  | cons c s ih =>
    obtain ⟨hblank, hopen, hclose⟩ := h c List.mem_cons_self
    intro depth rest
    rw [List.cons_append, cut, if_neg (by simp [hblank, hclose]), if_neg hopen, if_neg hclose,
      ih fun d hd => h d (List.mem_cons_of_mem _ hd)]
    rfl

theorem inner_blank : Inner [' '] := by
  intro depth rest
  rw [List.singleton_append, cut, if_neg (by simp), if_neg (by decide), if_neg (by decide)]
  rfl

/-- What stands between parentheses is one item with them. -/
theorem Inner.parenthesized {s : List Char} (h : Inner s) : Item ('(' :: s ++ [')']) := by
  intro depth rest
  rw [List.append_assoc, List.cons_append, cut, if_neg (by simp), if_pos rfl]
  simp only [List.singleton_append]
  rw [h, cut, if_neg (by simp), if_neg (by decide), if_pos rfl, Nat.add_sub_cancel]
  simp

theorem Stops.cut {r : List Char} (h : Stops r) : cut 0 r = ([], r) := by
  cases r with
  | nil => rfl
  | cons c cs => rw [Key.cut, if_pos ⟨rfl, h c cs rfl⟩]

/-- **A text starts with one item only.** -/
theorem Item.unique {s t r r' : List Char} (hs : Item s) (ht : Item t) (hr : Stops r)
    (hr' : Stops r') (h : s ++ r = t ++ r') : s = t ∧ r = r' := by
  have hcut := congrArg (cut 0) h
  rw [hs, ht, hr.cut, hr'.cut, List.append_nil, List.append_nil] at hcut
  exact Prod.mk.inj hcut

theorem stops_blank (r : List Char) : Stops (' ' :: r) :=
  fun _ _ h => .inl (List.cons.inj h).1.symm

/-- The part before the first blank is determined by a text. -/
theorem token_unique {s t r r' : List Char} (hs : ' ' ∉ s) (ht : ' ' ∉ t)
    (h : s ++ ' ' :: r = t ++ ' ' :: r') : s = t ∧ r = r' := by
  induction s generalizing t with
  | nil =>
    cases t with
    | nil => exact ⟨rfl, (List.cons.inj h).2⟩
    | cons d t => exact absurd (List.cons.inj h).1 fun hd => ht (hd ▸ List.mem_cons_self)
  | cons c s ih =>
    cases t with
    | nil => exact absurd (List.cons.inj h).1 fun hc => hs (hc ▸ List.mem_cons_self)
    | cons d t =>
      obtain ⟨rfl, htail⟩ := List.cons.inj h
      obtain ⟨rfl, rfl⟩ := ih (fun hc => hs (List.mem_cons_of_mem _ hc))
        (fun hc => ht (List.mem_cons_of_mem _ hc)) htail
      exact ⟨rfl, rfl⟩

/-! ## Numerals -/

theorem natToString_inj {m n : Nat} (h : toString m = toString n) : m = n := by
  have hlist := congrArg String.toList h
  rw [Text.toList_natToString, Text.toList_natToString] at hlist
  rw [← Nat.ofDigitChars_ten_toDigits (n := m), hlist, Nat.ofDigitChars_ten_toDigits]

theorem intToString_inj {v v' : Int} (h : toString v = toString v') : v = v' := by
  have hlist := congrArg String.toList h
  rw [Text.toList_intToString, Text.toList_intToString] at hlist
  -- a minus sign is no digit
  have hsign : ∀ m n : Nat, (toString m).toList ≠ '-' :: (toString n).toList := by
    intro m n heq
    have hdigit := Text.isDigit_of_mem_natToString (heq ▸ List.mem_cons_self)
    cases hdigit
  cases v <;> cases v' <;> simp only at hlist
  · rw [natToString_inj (String.toList_injective hlist)]
  · exact absurd hlist (hsign _ _)
  · exact absurd hlist.symm (hsign _ _)
  · have hsucc := natToString_inj (String.toList_injective (List.cons.inj hlist).2)
    rw [Nat.add_right_cancel hsucc]

theorem plain_natToString (n : Nat) : Plain (toString n).toList := by
  intro c hc
  have hdigit := Text.isDigit_of_mem_natToString hc
  refine ⟨?_, ?_, ?_⟩ <;> rintro rfl <;> cases hdigit

theorem plain_intToString (v : Int) : Plain (toString v).toList := by
  rw [Text.toList_intToString]
  cases v with
  | ofNat n => exact plain_natToString n
  | negSucc n =>
    intro c hc
    rcases List.mem_cons.mp hc with rfl | hc
    · decide
    · exact plain_natToString _ c hc

end Key

namespace Canon
open Key

/-! ## The parts of a key -/

/-- The name of the topmost operator. -/
def label : Canon → String
  | .var _ _ | .const _ _ => ""
  | .monadic _ op _ => op.keyName
  | .dyadic _ op _ _ => op.keyName
  | .select _ _ _ _ => "Select"
  | .sum _ _ _ _ => "sum"

/-- The terms of a sum, each followed by a blank. -/
def termText : List (Bool × Canon) → List Char
  | [] => []
  | t :: ts => (if t.1 then '-' else '+') :: (t.2.key.toList ++ ' ' :: termText ts)

/-- What stands in the key after the name of the operator. -/
def inside : Canon → List Char
  | .var _ _ | .const _ _ => []
  | .monadic _ _ a => a.key.toList
  | .dyadic _ _ a b => a.key.toList ++ ' ' :: b.key.toList
  | .select _ c a b => c.key.toList ++ ' ' :: (a.key.toList ++ ' ' :: b.key.toList)
  | .sum _ [] k _ => ' ' :: '~' :: (toString k).toList
  | .sum _ (t :: ts) k _ => termText (t :: ts) ++ '~' :: (toString k).toList

/-- Whether the topmost node is an operation. -/
def isOperation : Canon → Bool
  | .var _ _ | .const _ _ => false
  | _ => true

theorem toList_termKeys (t : Bool × Canon) (ts : List (Bool × Canon)) (r : List Char) :
    (" ".intercalate (termKeys (t :: ts))).toList ++ ' ' :: r = termText (t :: ts) ++ r := by
  induction ts generalizing t with
  | nil =>
    obtain ⟨negated, c⟩ := t
    cases negated <;> simp [termKeys, termText]
  | cons u us ih =>
    have hne : termKeys (u :: us) ≠ [] := by simp [termKeys]
    obtain ⟨negated, c⟩ := t
    rw [termKeys, String.intercalate_cons_of_ne_nil hne, String.toList_append, List.append_assoc,
      ih u]
    cases negated <;> simp [termText]

theorem toList_key {c : Canon} (h : c.isOperation = true) :
    c.key.toList = '(' :: (c.label.toList ++ ' ' :: c.inside) ++ [')'] := by
  cases c with
  | var | const => cases h
  | monadic => simp [key, label, inside]
  | dyadic => simp [key, label, inside]
  | select => simp [key, label, inside]
  | sum _ ts k _ =>
    cases ts with
    | nil => simp [key, label, inside, termKeys]
    | cons t ts =>
      have hterms := toList_termKeys t ts ('~' :: ((toString k).toList ++ [')']))
      simpa [key, label, inside] using hterms

theorem toList_keyName_trunc (bits : Nat) :
    (MonadicOp.trunc bits).keyName.toList =
      "Trunc".toList ++ ('(' :: (toString bits).toList ++ [')']) := by
  show (toString "Trunc(" ++ toString bits ++ toString ")").toList = _
  rw [String.toList_append, String.toList_append]
  simp [toString]

theorem plain_keyName (op : DyadicOp) : Plain op.keyName.toList := by
  cases op <;> decide

/-- The name of an operator is an item without blanks; a truncation has its width in it. -/
theorem item_label (c : Canon) : Item c.label.toList ∧ ' ' ∉ c.label.toList := by
  have hplain : ∀ {s : List Char}, Plain s → Item s ∧ ' ' ∉ s :=
    fun h => ⟨h.item, fun hmem => (h _ hmem).1 rfl⟩
  cases c with
  | var | const => exact hplain (show Plain "".toList by decide)
  | select => exact hplain (show Plain "Select".toList by decide)
  | sum => exact hplain (show Plain "sum".toList by decide)
  | dyadic _ op _ _ => exact hplain (plain_keyName op)
  | monadic _ op _ =>
    cases op with
    | not => exact hplain (show Plain "Not".toList by decide)
    | trunc bits =>
      have hname : Plain "Trunc".toList := by decide
      have hbits := plain_natToString bits
      rw [label, toList_keyName_trunc]
      refine ⟨hname.item.append hbits.item.inner.parenthesized, ?_⟩
      have hno := fun h => (hbits ' ' h).1 rfl
      simpa using hno

/-! ## Reading keys back -/

/-- The keys right below the topmost node are items, and the name of a variable is plain. -/
structure Clear (c : Canon) : Prop where
  name : ∀ o name, c = .var o name → Plain name.toList
  below : ∀ a ∈ c.children, Item a.key.toList

theorem inner_termText {ts : List (Bool × Canon)} (h : ∀ t ∈ ts, Item t.2.key.toList) :
    Inner (termText ts) := by
  induction ts with
  | nil => exact fun _ _ => rfl
  | cons t ts ih =>
    have hsign : Inner [if t.1 then '-' else '+'] := by
      apply Item.inner
      apply Plain.item
      cases t.1 <;> decide
    have hkey := (h t List.mem_cons_self).inner
    have hrest := ih fun u hu => h u (List.mem_cons_of_mem _ hu)
    exact hsign.append (hkey.append (inner_blank.append hrest))

theorem Clear.inner_inside {c : Canon} (h : c.Clear) : Inner c.inside := by
  have hconst : ∀ k : Int, Inner ('~' :: (toString k).toList) := by
    intro k
    have htilde : Plain ['~'] := by decide
    exact htilde.item.inner.append (plain_intToString k).item.inner
  cases c with
  | var | const => exact fun _ _ => rfl
  | monadic _ _ a => exact (h.below a (by simp [children])).inner
  | dyadic _ _ a b =>
    have ha := (h.below a (by simp [children])).inner
    have hb := (h.below b (by simp [children])).inner
    exact ha.append (inner_blank.append hb)
  | select _ c a b =>
    have hc := (h.below c (by simp [children])).inner
    have ha := (h.below a (by simp [children])).inner
    have hb := (h.below b (by simp [children])).inner
    exact hc.append (inner_blank.append (ha.append (inner_blank.append hb)))
  | sum _ ts k _ =>
    cases ts with
    | nil => exact inner_blank.append (hconst k)
    | cons t ts =>
      refine (inner_termText fun u hu => h.below u.2 ?_).append (hconst k)
      exact List.mem_map_of_mem hu

theorem Clear.item_key {c : Canon} (h : c.Clear) : Item c.key.toList := by
  by_cases hop : c.isOperation = true
  · rw [toList_key hop]
    exact ((item_label c).1.inner.append (inner_blank.append h.inner_inside)).parenthesized
  · cases c with
    | var o name =>
      have hmark : Plain "v:".toList := by decide
      rw [key, String.toList_append]
      exact hmark.item.append (h.name o name rfl).item
    | const o v =>
      have hmark : Plain "~".toList := by decide
      rw [key, String.toList_append]
      exact hmark.item.append (plain_intToString v).item
    | monadic | dyadic | select | sum => exact absurd rfl hop

/-- The topmost nodes are the same operation, and the keys below them are equal. -/
inductive Alike : Canon → Canon → Prop where
  | var (o o' : Origin) (name : String) : Alike (.var o name) (.var o' name)
  | const (o o' : Origin) (v : Int) : Alike (.const o v) (.const o' v)
  | monadic (o o' : Origin) (op : MonadicOp) {a a' : Canon} (ha : a.key = a'.key) :
    Alike (.monadic o op a) (.monadic o' op a')
  | dyadic (o o' : Origin) (op : DyadicOp) {a a' b b' : Canon} (ha : a.key = a'.key)
    (hb : b.key = b'.key) : Alike (.dyadic o op a b) (.dyadic o' op a' b')
  | select (o o' : Origin) {c c' a a' b b' : Canon} (hc : c.key = c'.key) (ha : a.key = a'.key)
    (hb : b.key = b'.key) : Alike (.select o c a b) (.select o' c' a' b')
  | sum (o o' : Origin) {ts ts' : List (Bool × Canon)} (k : Int) (adds adds' : List Nat)
    (hts : List.Forall₂ (fun t t' => t.1 = t'.1 ∧ t.2.key = t'.2.key) ts ts') :
    Alike (.sum o ts k adds) (.sum o' ts' k adds')

/-- The terms and the constant of a sum are determined by its text. -/
theorem termText_unique {ts ts' : List (Bool × Canon)} {k k' : Int}
    (hts : ∀ t ∈ ts, Item t.2.key.toList) (hts' : ∀ t ∈ ts', Item t.2.key.toList)
    (h : termText ts ++ '~' :: (toString k).toList = termText ts' ++ '~' :: (toString k').toList) :
    List.Forall₂ (fun t t' => t.1 = t'.1 ∧ t.2.key = t'.2.key) ts ts' ∧ k = k' := by
  have hmark : ∀ negated : Bool, (if negated then '-' else '+') ≠ '~' := by decide
  induction ts generalizing ts' with
  | nil =>
    cases ts' with
    | nil => exact ⟨.nil, intToString_inj (String.toList_injective (List.cons.inj h).2)⟩
    | cons t' ts' => exact absurd (List.cons.inj h).1.symm (hmark _)
  | cons t ts ih =>
    cases ts' with
    | nil => exact absurd (List.cons.inj h).1 (hmark _)
    | cons t' ts' =>
      rw [termText, termText, List.cons_append, List.cons_append, List.append_assoc,
        List.append_assoc] at h
      obtain ⟨hsign, hrest⟩ := List.cons.inj h
      obtain ⟨hkey, hrest⟩ := (hts t List.mem_cons_self).unique (hts' t' List.mem_cons_self)
        (stops_blank _) (stops_blank _) hrest
      obtain ⟨htail, hk⟩ := ih (fun u hu => hts u (List.mem_cons_of_mem _ hu))
        (fun u hu => hts' u (List.mem_cons_of_mem _ hu)) (List.cons.inj hrest).2
      have hneg : t.1 = t'.1 := by
        cases h₁ : t.1 <;> cases h₂ : t'.1 <;> simp [h₁, h₂] at hsign ⊢
      exact ⟨.cons ⟨hneg, String.toList_injective hkey⟩ htail, hk⟩

/-- Equal keys of operations name the same operator, and go on alike. -/
theorem inside_eq_of_key {c c' : Canon} (hc : c.isOperation = true) (hc' : c'.isOperation = true)
    (h : c.key = c'.key) : c.label = c'.label ∧ c.inside = c'.inside := by
  have hlist := congrArg String.toList h
  rw [toList_key hc, toList_key hc', List.append_left_inj] at hlist
  obtain ⟨hlabel, hinside⟩ := token_unique (item_label c).2 (item_label c').2
    (List.cons.inj hlist).2
  exact ⟨String.toList_injective hlabel, hinside⟩

theorem keyName_trunc_ne (bits : Nat) {s : String} (h : s.toList.take 5 ≠ "Trunc".toList) :
    (MonadicOp.trunc bits).keyName ≠ s := by
  rintro rfl
  rw [toList_keyName_trunc] at h
  exact h rfl

theorem keyName_inj_monadic {op op' : MonadicOp} (h : op.keyName = op'.keyName) : op = op' := by
  cases op with
  | not =>
    cases op' with
    | not => rfl
    | trunc bits => exact absurd h.symm (keyName_trunc_ne bits (by decide))
  | trunc bits =>
    cases op' with
    | not => exact absurd h (keyName_trunc_ne bits (by decide))
    | trunc bits' =>
      have hlist := congrArg String.toList h
      rw [toList_keyName_trunc, toList_keyName_trunc, List.append_right_inj, List.append_left_inj]
        at hlist
      rw [natToString_inj (String.toList_injective (List.cons.inj hlist).2)]

theorem keyName_inj_dyadic {op op' : DyadicOp} (h : op.keyName = op'.keyName) : op = op' := by
  revert h
  cases op <;> cases op' <;> decide

theorem keyName_monadic_ne_dyadic (op : MonadicOp) (op' : DyadicOp) :
    op.keyName ≠ op'.keyName := by
  cases op with
  | not => cases op' <;> decide
  | trunc bits =>
    apply keyName_trunc_ne
    cases op' <;> decide

theorem keyName_monadic_ne (op : MonadicOp) : op.keyName ≠ "Select" ∧ op.keyName ≠ "sum" := by
  cases op with
  | not => decide
  | trunc bits => exact ⟨keyName_trunc_ne bits (by decide), keyName_trunc_ne bits (by decide)⟩

theorem keyName_dyadic_ne (op : DyadicOp) : op.keyName ≠ "Select" ∧ op.keyName ≠ "sum" := by
  cases op <;> decide

/-- The first character of a key tells variables, constants and operations apart. -/
theorem head_key (c : Canon) :
    c.key.toList.head? = some (match c with | .var _ _ => 'v' | .const _ _ => '~' | _ => '(') := by
  cases c with
  | var | const => simp [key]
  | monadic | dyadic | select | sum => rw [toList_key rfl]; rfl

/-- **Equal keys belong to the same operation over equal keys.** -/
theorem alike_of_key {c c' : Canon} (hc : c.Clear) (hc' : c'.Clear) (h : c.key = c'.key) :
    Alike c c' := by
  have hhead := (head_key c).symm.trans ((congrArg (·.toList.head?) h).trans (head_key c'))
  -- operations: by the name of the operator, then item by item
  have hparts : c.isOperation = true → c'.isOperation = true →
      c.label = c'.label ∧ c.inside = c'.inside := fun hop hop' => inside_eq_of_key hop hop' h
  cases c with
  | var o name =>
    cases c' with
    | var o' name' =>
      rw [key, key, String.append_right_inj] at h
      exact h ▸ .var o o' name
    | const | monadic | dyadic | select | sum => cases hhead
  | const o v =>
    cases c' with
    | const o' v' =>
      rw [key, key, String.append_right_inj] at h
      exact intToString_inj h ▸ .const o o' v
    | var | monadic | dyadic | select | sum => cases hhead
  | monadic o op a =>
    cases c' with
    | monadic o' op' a' =>
      obtain ⟨hlabel, hinside⟩ := hparts rfl rfl
      obtain rfl := keyName_inj_monadic hlabel
      exact .monadic o o' op (String.toList_injective hinside)
    | dyadic o' op' => exact absurd (hparts rfl rfl).1 (keyName_monadic_ne_dyadic op op')
    | select => exact absurd (hparts rfl rfl).1 (keyName_monadic_ne op).1
    | sum => exact absurd (hparts rfl rfl).1 (keyName_monadic_ne op).2
    | var | const => cases hhead
  | dyadic o op a b =>
    cases c' with
    | dyadic o' op' a' b' =>
      obtain ⟨hlabel, hinside⟩ := hparts rfl rfl
      obtain rfl := keyName_inj_dyadic hlabel
      obtain ⟨ha, hb⟩ := (hc.below a (by simp [children])).unique
        (hc'.below a' (by simp [children])) (stops_blank _) (stops_blank _) hinside
      exact .dyadic o o' op (String.toList_injective ha)
        (String.toList_injective (List.cons.inj hb).2)
    | monadic o' op' => exact absurd (hparts rfl rfl).1.symm (keyName_monadic_ne_dyadic op' op)
    | select => exact absurd (hparts rfl rfl).1 (keyName_dyadic_ne op).1
    | sum => exact absurd (hparts rfl rfl).1 (keyName_dyadic_ne op).2
    | var | const => cases hhead
  | select o x a b =>
    cases c' with
    | select o' x' a' b' =>
      obtain ⟨-, hinside⟩ := hparts rfl rfl
      obtain ⟨hx, hrest⟩ := (hc.below x (by simp [children])).unique
        (hc'.below x' (by simp [children])) (stops_blank _) (stops_blank _) hinside
      obtain ⟨ha, hb⟩ := (hc.below a (by simp [children])).unique
        (hc'.below a' (by simp [children])) (stops_blank _) (stops_blank _)
        (List.cons.inj hrest).2
      exact .select o o' (String.toList_injective hx) (String.toList_injective ha)
        (String.toList_injective (List.cons.inj hb).2)
    | monadic o' op' => exact absurd (hparts rfl rfl).1.symm (keyName_monadic_ne op').1
    | dyadic o' op' => exact absurd (hparts rfl rfl).1.symm (keyName_dyadic_ne op').1
    | sum => exact absurd (show "Select" = "sum" from (hparts rfl rfl).1) (by decide)
    | var | const => cases hhead
  | sum o ts k adds =>
    cases c' with
    | sum o' ts' k' adds' =>
      obtain ⟨-, hinside⟩ := hparts rfl rfl
      have hitems : ∀ t ∈ ts, Item t.2.key.toList := fun t ht => hc.below _ (List.mem_map_of_mem ht)
      have hitems' : ∀ t ∈ ts', Item t.2.key.toList :=
        fun t ht => hc'.below _ (List.mem_map_of_mem ht)
      have htext : termText ts ++ '~' :: (toString k).toList =
          termText ts' ++ '~' :: (toString k').toList := by
        have hsign : ∀ negated : Bool, (if negated then '-' else '+') ≠ ' ' := by decide
        cases ts with
        | nil =>
          cases ts' with
          | nil => exact (List.cons.inj hinside).2
          | cons t' ts' => exact absurd (List.cons.inj hinside).1.symm (hsign _)
        | cons t ts =>
          cases ts' with
          | nil => exact absurd (List.cons.inj hinside).1 (hsign _)
          | cons t' ts' => exact hinside
      obtain ⟨hterms, rfl⟩ := termText_unique hitems hitems' htext
      exact .sum o o' k adds adds' hterms
    | monadic o' op' => exact absurd (hparts rfl rfl).1.symm (keyName_monadic_ne op').2
    | dyadic o' op' => exact absurd (hparts rfl rfl).1.symm (keyName_dyadic_ne op').2
    | select => exact absurd (show "sum" = "Select" from (hparts rfl rfl).1) (by decide)
    | var | const => cases hhead

end Canon
end CustomIsa
