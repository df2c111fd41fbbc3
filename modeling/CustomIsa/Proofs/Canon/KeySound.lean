import CustomIsa.Proofs.Canon.Compute
import CustomIsa.Proofs.Foundations
/-! # Equal keys and equal values

The key of a canonical form tells its operators and operands, and not the type in which the form is
computed. Two expressions with equal keys therefore have equal values only if the type does not
matter: if below the two expressions, any forms with equal keys are reduced into the same type, or
not at all (`Canon.KeysTellType`). Under this condition every form is faithful and every key stands
for one value. Both are shown together, by induction on the size of expressions (`Canon.known`): a
form is faithful because terms that cancel and operands of a maximum have equal values, and keys of
faithful forms stand for the values of the operands. -/
namespace CustomIsa
open Bits

/-- Reducing keeps a truth value apart from zero. -/
theorem IntType.reduceIn_ne_zero {w : Option IntType} (hw : ∀ ty, w = some ty → ty.Proper) {v : Int}
    (hv : v = 0 ∨ v = 1) : IntType.reduceIn w v ≠ 0 ↔ v ≠ 0 := by
  cases w with
  | none => exact Iff.rfl
  | some ty =>
    rcases hv with rfl | rfl
    · simp [reduceIn, reduce_zero (hw ty rfl)]
    · simp [reduceIn, reduce_one_ne_zero (hw ty rfl)]

namespace Canon

/-- Among the expressions, any whose canonical forms have equal keys wrap in the same type. -/
def KeysTellType (es : List (Expr Nat)) : Prop :=
  ∀ m ∈ es, ∀ n ∈ es, (ofExpr m).key = (ofExpr n).key → m.wrapsIn = n.wrapsIn

instance (es : List (Expr Nat)) : Decidable (KeysTellType es) :=
  inferInstanceAs (Decidable (∀ m ∈ es, ∀ n ∈ es, _ → _))

/-- Well-formed expressions, with all expressions below them, among which keys tell the type. -/
structure Family (env : Env) (S : Expr Nat → Prop) : Prop where
  below : ∀ {e s}, S e → s ∈ e.preorder → S s
  proper : ∀ {e}, S e → e.Proper
  admits : ∀ {e}, S e → e.Admits env
  plain : ∀ {e}, S e → e.Obeys plainNames
  wraps : ∀ {m n}, S m → S n → (ofExpr m).key = (ofExpr n).key → m.wrapsIn = n.wrapsIn

/-- What is known of the expressions of the family below a size. -/
structure Known (env : Env) (S : Expr Nat → Prop) (size : Nat) : Prop where
  faithful : ∀ {e}, S e → e.size < size → Faithful env e
  same : ∀ {m n}, S m → S n → m.size < size → n.size < size →
    (ofExpr m).key = (ofExpr n).key → m.value env = n.value env

variable {env : Env} {S : Expr Nat → Prop} {m : Expr Nat}

/-! ## Every form is faithful -/

section Step
variable (hS : Family env S) (hm : S m) (hk : Known env S m.size)
include hS hm hk

theorem below_of_known : Below env m := by
  have hfaithful : ∀ {s : Expr Nat}, s.Under m → Faithful env s :=
    fun hs => hk.faithful (hS.below hm hs.mem) hs.size
  refine ⟨fun hs hv => (hfaithful hs).constant hv, fun hs => (hfaithful hs).pos,
    fun hs => (hfaithful hs).range, fun hs hu hkey => ?_, fun hs hform htruth => ?_⟩
  · exact hk.same (hS.below hm hs.mem) (hS.below hm hu.mem) hs.size hu.size hkey
  · rw [(hfaithful hs).value, IntType.reduceIn_ne_zero (hfaithful hs).proper]
    rw [hform]
    exact htruth _ _

/-- **Every form is faithful**, given what is known of smaller expressions. -/
theorem faithful_of_known : Faithful env m := by
  have hproper := hS.proper hm
  have hadm := hS.admits hm
  cases computes_of_below hproper hadm (below_of_known hS hm hk) with
  | const absorbed v hform hvalue => exact faithful_of_const hproper hadm hform hvalue
  | truncation horigin hlossy hcompl htop =>
    exact faithful_of_overflow hproper hadm horigin hlossy hcompl htop
  | own absorbed horigin _ htop hexact => exact faithful_of_exact hproper hadm horigin htop hexact
  | collapsed s others hs hform hvalue hvaries =>
    have hin := hS.below hm hs.mem
    refine faithful_of_wrap hproper hform (hk.faithful hin hs.size) ?_ hvalue hvaries
    exact hS.wraps hm hin (by rw [hform, key_wrap])
  | sum o terms k adds hform hty hbounds hvalue hexact =>
    refine faithful_of_bounds hproper ?_ ?_ ?_ fun hlossy => ?_ <;> rw [hform] at *
    · exact hbounds
    · exact hty
    · exact hvalue
    · exact hexact (.inl hlossy)

end Step

/-! ## Keys stand for values -/

/-- Forms that are alike compute the same number from operands of the same values. -/
theorem topValue_of_alike {c c' : Canon} (h : Alike c c')
    (hsame : ∀ a ∈ c.children, ∀ a' ∈ c'.children, a.key = a'.key →
      a.sourceValue env = a'.sourceValue env) : c.topValue env = c'.topValue env := by
  cases h with
  | var | const => rfl
  | monadic o o' op ha =>
    have hvalue := hsame _ (by simp [children]) _ (by simp [children]) ha
    cases op <;> simp only [topValue, hvalue]
  | dyadic o o' op ha hb =>
    rw [topValue, topValue, hsame _ (by simp [children]) _ (by simp [children]) ha,
      hsame _ (by simp [children]) _ (by simp [children]) hb]
  | select o o' hc ha hb =>
    rw [topValue, topValue, hsame _ (by simp [children]) _ (by simp [children]) hc,
      hsame _ (by simp [children]) _ (by simp [children]) ha,
      hsame _ (by simp [children]) _ (by simp [children]) hb]
  | sum o o' k adds adds' hts =>
    rw [topValue, topValue]
    congr 1
    simp only [children] at hsame
    induction hts with
    | nil => rfl
    | cons hfirst _ ih =>
      rw [Chain.termsValue, Chain.termsValue, hfirst.1,
        hsame _ (by simp) _ (by simp) hfirst.2, ih fun a ha a' ha' =>
          hsame a (List.mem_cons_of_mem _ ha) a' (List.mem_cons_of_mem _ ha')]

/-- Faithful forms with equal keys stand for equal values, if those of their operands do. -/
theorem value_of_key {n : Expr Nat} {size : Nat} (hS : Family env S) (hk : Known env S size)
    (hm : S m) (hn : S n) (hms : m.size ≤ size) (hns : n.size ≤ size) (hfm : Faithful env m)
    (hfn : Faithful env n) (hkey : (ofExpr m).key = (ofExpr n).key) :
    m.value env = n.value env := by
  have halike := alike_of_key (clear_ofExpr (hS.plain hm)) (clear_ofExpr (hS.plain hn)) hkey
  have htop : (ofExpr m).topValue env = (ofExpr n).topValue env := by
    refine topValue_of_alike halike fun a ha a' ha' hkeys => ?_
    obtain ⟨s, hs, rfl⟩ := child_ofExpr ha
    obtain ⟨s', hs', rfl⟩ := child_ofExpr ha'
    rw [sourceValue_ofExpr, sourceValue_ofExpr]
    exact hk.same (hS.below hm hs.mem) (hS.below hn hs'.mem) (Nat.lt_of_lt_of_le hs.size hms)
      (Nat.lt_of_lt_of_le hs'.size hns) hkeys
  rw [hfm.value, hfn.value, hS.wraps hm hn hkey, htop]

/-- **In a family whose keys tell the type, forms are faithful and keys stand for values.** -/
theorem known (hS : Family env S) (size : Nat) : Known env S size := by
  induction size with
  | zero =>
    exact ⟨fun _ h => absurd h (Nat.not_lt_zero _), fun _ _ h => absurd h (Nat.not_lt_zero _)⟩
  | succ size ih =>
    -- forms of this size first, from keys of smaller ones; then keys of this size from the forms
    have hfaithful : ∀ {e}, S e → e.size < size + 1 → Faithful env e := by
      intro e he hlt
      refine faithful_of_known hS he ⟨fun hs hsize => ?_, fun hs hs' hsize hsize' => ?_⟩
      · exact ih.faithful hs (by omega)
      · exact ih.same hs hs' (by omega) (by omega)
    exact ⟨hfaithful, fun hm hn hms hns => value_of_key hS ih hm hn (Nat.le_of_lt_succ hms)
      (Nat.le_of_lt_succ hns) (hfaithful hm hms) (hfaithful hn hns)⟩

end Canon

namespace ExprTree
open Canon
variable {env : Env} {vars : Typing} {text : String} {t : ExprTree}

theorem plain_of_isWord {name : String} (h : Expr.IsWord name) : Key.Plain name.toList := by
  obtain ⟨c, more, rfl, hstart, hmore⟩ := h
  rw [String.toList_ofList]
  intro d hd
  have hin : Expr.startsWord d = true ∨ Expr.inWord d = true := by
    rcases List.mem_cons.mp hd with rfl | hd
    · exact .inl hstart
    · exact .inr (hmore d hd)
  refine ⟨?_, ?_, ?_⟩ <;> rintro rfl <;> exact absurd hin (by decide)

/-- The names of variables in an expression that was read from text are plain. -/
theorem plainNames_ofText (h : ofText vars text = .ok t) : ∀ n ∈ t.nodes, n.Obeys plainNames :=
  obeys_ofText ⟨fun _ _ hword _ => plain_of_isWord hword, fun _ _ _ _ _ _ => trivial,
    fun _ _ _ => trivial⟩ h

/-- **Equal keys stand for equal values, where keys tell the type.** Let two nodes of an expression
read from text have equal keys. If among the nodes below them any two with equal keys are reduced
into the same type or not at all, then the nodes have equal values, whatever the values of the
variables. -/
theorem key_sound (htext : ofText vars text = .ok t)
    (htyped : ∀ name ty, vars.get? name = some ty → ty.Proper ∧ ty.Has (env name))
    {p q : Expr Nat} (hp : p ∈ t.nodes) (hq : q ∈ t.nodes)
    (htell : KeysTellType (p.preorder ++ q.preorder))
    (hkey : (Canon.ofExpr p).key = (Canon.ofExpr q).key) : p.value env = q.value env := by
  have horigin : t.Origin env := .read vars text htyped htext
  -- every node below one of the two obeys what that one obeys
  have hobeys : ∀ {rule : Expr.LeafRule}, (∀ n ∈ t.nodes, n.Obeys rule) →
      ∀ {e}, e ∈ p.preorder ++ q.preorder → e.Obeys rule := by
    intro rule hrule e he
    rcases List.mem_append.mp he with he | he
    · exact (hrule p hp).of_mem_preorder he
    · exact (hrule q hq).of_mem_preorder he
  have hfamily : Family env (· ∈ p.preorder ++ q.preorder) := by
    refine ⟨fun he hs => ?_, hobeys horigin.proper, hobeys horigin.admits,
      hobeys (plainNames_ofText htext), fun hm hn => htell _ hm _ hn⟩
    rcases List.mem_append.mp he with he | he
    · exact List.mem_append_left _ (Expr.mem_preorder_trans he hs)
    · exact List.mem_append_right _ (Expr.mem_preorder_trans he hs)
  have hlt : p.size < p.size + q.size + 1 ∧ q.size < p.size + q.size + 1 := by omega
  exact (known hfamily _).same (List.mem_append_left _ p.mem_preorder_self)
    (List.mem_append_right _ q.mem_preorder_self) hlt.1 hlt.2 hkey

/-- Sums of the same terms in different order and grouping, all computed in 32 bits, have equal
values although parts of them overflow. -/
theorem key_sound_reordered :
    ∃ t p q, ofText (.ofList [("x", .u32), ("y", .u32), ("z", .u32)])
        "(x + y - z) ^ (y - (z - x))" = .ok t ∧
      p ∈ t.nodes ∧ q ∈ t.nodes ∧ p ≠ q ∧ KeysTellType (p.preorder ++ q.preorder) ∧
      (Canon.ofExpr p).key = "(sum +v:x +v:y -v:z ~0)" ∧
      (Canon.ofExpr q).key = "(sum +v:x +v:y -v:z ~0)" ∧
      p.value (fun _ => 2 ^ 32 - 1) = q.value (fun _ => 2 ^ 32 - 1) := by
  have hrun : (ofText (.ofList [("x", .u32), ("y", .u32), ("z", .u32)])
      "(x + y - z) ^ (y - (z - x))").toOption.any (fun t => t.nodes.any fun p =>
        t.nodes.any fun q => p ≠ q && decide (KeysTellType (p.preorder ++ q.preorder)) &&
          (Canon.ofExpr p).key = "(sum +v:x +v:y -v:z ~0)" &&
          (Canon.ofExpr q).key = "(sum +v:x +v:y -v:z ~0)") = true := by
    decide +kernel
  obtain ⟨t, htext, hany⟩ := Option.any_eq_true _ _ |>.mp hrun
  obtain ⟨p, hp, hany⟩ := List.any_eq_true.mp hany
  obtain ⟨q, hq, hcase⟩ := List.any_eq_true.mp hany
  simp only [Bool.and_eq_true, decide_eq_true_eq] at hcase
  obtain ⟨⟨⟨hne, htell⟩, hkp⟩, hkq⟩ := hcase
  have htext := eq_ok_of_toOption htext
  refine ⟨t, p, q, htext, hp, hq, hne, htell, hkp, hkq, ?_⟩
  refine key_sound htext (fun name ty hty => ?_) hp hq htell (hkp.trans hkq.symm)
  have hu32 : ty = .u32 := by
    simp only [NameMap.ofList, List.foldl_cons, List.foldl_nil, NameMap.get?_insert,
      NameMap.get?_empty] at hty
    split_ifs at hty <;> exact (Option.some.inj hty).symm
  rw [hu32]
  decide

/-- **A key does not tell the type.** The two sums below have equal keys, but one of them is
computed in 64 bits and the other one wraps around in 32, so the difference of their triples, which
is taken for the constant zero, is another number. -/
theorem key_blind_to_type :
    ∃ t p q, ofText (.ofList [("x", .u32), ("y", .u32)]) "((uint64_t)x + y) * 3 - (x + y) * 3" =
        .ok t ∧ p ∈ t.nodes ∧ q ∈ t.nodes ∧ (Canon.ofExpr p).key = (Canon.ofExpr q).key ∧
      p.value (fun _ => 2 ^ 31) = 2 ^ 32 ∧ q.value (fun _ => 2 ^ 31) = 0 ∧
      (Canon.ofExpr t.root).constant? = some 0 ∧
      t.root.value (fun _ => 2 ^ 31) = 3 * 2 ^ 32 := by
  have hrun : (ofText (.ofList [("x", .u32), ("y", .u32)])
      "((uint64_t)x + y) * 3 - (x + y) * 3").toOption.any (fun t => t.nodes.any fun p =>
        t.nodes.any fun q => (Canon.ofExpr p).key = (Canon.ofExpr q).key &&
          p.value (fun _ => 2 ^ 31) = 2 ^ 32 && q.value (fun _ => 2 ^ 31) = 0 &&
          (Canon.ofExpr t.root).constant? = some 0 &&
          t.root.value (fun _ => 2 ^ 31) = 3 * 2 ^ 32) = true := by
    decide +kernel
  obtain ⟨t, htext, hany⟩ := Option.any_eq_true _ _ |>.mp hrun
  obtain ⟨p, hp, hany⟩ := List.any_eq_true.mp hany
  obtain ⟨q, hq, hcase⟩ := List.any_eq_true.mp hany
  simp only [Bool.and_eq_true, decide_eq_true_eq] at hcase
  obtain ⟨⟨⟨⟨hkey, hvp⟩, hvq⟩, hconst⟩, hroot⟩ := hcase
  exact ⟨t, p, q, eq_ok_of_toOption htext, hp, hq, hkey, hvp, hvq, hconst, hroot⟩

end ExprTree
end CustomIsa
