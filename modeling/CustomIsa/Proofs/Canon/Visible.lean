import CustomIsa.Proofs.Canon.Source
/-! # What a canonical form shows of its expression

Every node of a canonical form is the form of a visible expression
(`Canon.visible_of_mem_preorder`), and every visible expression has a node, or is a constant
(`Canon.shown_of_visible`). A node that an outer one collapsed into stands for both, so it is the
same up to its origin (`Canon.Same`). -/
namespace CustomIsa
namespace Canon

/-! ## Forms up to their origin -/

/-- The forms differ at most in the source nodes for which their topmost nodes stand. -/
structure Same (c d : Canon) : Prop where
  form : ∀ o, c.withOrigin o = d.withOrigin o
  info : c.info = d.info
  ty : c.ty = d.ty

theorem Same.refl (c : Canon) : c.Same c := ⟨fun _ => rfl, rfl, rfl⟩

theorem Same.symm {c d : Canon} (h : c.Same d) : d.Same c :=
  ⟨fun o => (h.form o).symm, h.info.symm, h.ty.symm⟩

theorem Same.trans {b c d : Canon} (h : b.Same c) (h' : c.Same d) : b.Same d :=
  ⟨fun o => (h.form o).trans (h'.form o), h.info.trans h'.info, h.ty.trans h'.ty⟩

theorem withOrigin_origin (c : Canon) : c.withOrigin c.origin = c := by
  cases c <;> rfl

theorem Same.eq_withOrigin {c d : Canon} (h : c.Same d) : d = c.withOrigin d.origin := by
  rw [h.form, withOrigin_origin]

theorem same_wrap (c : Canon) (outer : Expr Nat) (others : List Nat) :
    (c.wrap outer others).Same c := by
  refine ⟨fun o => ?_, ?_, ?_⟩
  · cases c <;> rfl
  · rw [info, origin_wrap]
    rfl
  · rw [ty, origin_wrap]
    rfl

theorem Same.children {c d : Canon} (h : c.Same d) : d.children = c.children := by
  rw [h.eq_withOrigin, children_withOrigin]

theorem Same.constant {c d : Canon} (h : c.Same d) : d.constant? = c.constant? := by
  rw [h.eq_withOrigin, constant_withOrigin]

theorem children_of_constant {c : Canon} (h : c.constant?.isSome = true) : c.children = [] := by
  cases c with
  | const => rfl
  | var | monadic | dyadic | select | sum => cases h

/-! ## Nodes -/

theorem preorder_eq (c : Canon) : c.preorder = c :: c.children.flatMap preorder := by
  have hterms : ∀ terms : List (Bool × Canon),
      preorderOfTerms terms = (terms.map Prod.snd).flatMap preorder := by
    intro terms
    induction terms with
    | nil => rfl
    | cons t terms ih => rw [preorderOfTerms, ih, List.map_cons, List.flatMap_cons]
  cases c <;> simp [preorder, Canon.children, hterms]

theorem mem_preorder_self (c : Canon) : c ∈ c.preorder := by
  rw [preorder_eq]
  exact List.mem_cons_self

theorem mem_preorder_of_child {c d x : Canon} (hd : d ∈ c.children) (hx : x ∈ d.preorder) :
    x ∈ c.preorder := by
  rw [preorder_eq]
  exact List.mem_cons_of_mem _ (List.mem_flatMap.mpr ⟨d, hd, hx⟩)

theorem sizeOf_lt_of_child {c d : Canon} (hd : d ∈ c.children) : sizeOf d < sizeOf c := by
  cases c with
  | var | const => cases hd
  | monadic _ _ a =>
    obtain rfl := List.mem_singleton.mp hd
    simp only [monadic.sizeOf_spec]
    omega
  | dyadic _ _ a b =>
    rcases List.mem_pair.mp hd with rfl | rfl <;> simp only [dyadic.sizeOf_spec] <;> omega
  | select _ c a b =>
    rcases List.mem_cons.mp hd with rfl | hd
    · simp only [select.sizeOf_spec]
      omega
    · rcases List.mem_pair.mp hd with rfl | rfl <;> simp only [select.sizeOf_spec] <;> omega
  | sum _ terms _ _ =>
    obtain ⟨t, ht, rfl⟩ := List.mem_map.mp hd
    have hlt := List.sizeOf_lt_of_mem ht
    have hpair : sizeOf t = 1 + sizeOf t.1 + sizeOf t.2 := rfl
    simp only [sum.sizeOf_spec]
    omega

/-- The nodes below a node of a form are nodes of the form. -/
theorem mem_preorder_trans {c d x : Canon} (hd : d ∈ c.preorder) (hx : x ∈ d.preorder) :
    x ∈ c.preorder := by
  induction hn : sizeOf c using Nat.strongRecOn generalizing c with
  | ind n ih =>
    subst hn
    have hcases := hd
    rw [preorder_eq] at hcases
    rcases List.mem_cons.mp hcases with rfl | hbelow
    · exact hx
    · obtain ⟨a, ha, hda⟩ := List.mem_flatMap.mp hbelow
      exact mem_preorder_of_child ha (ih _ (sizeOf_lt_of_child ha) hda rfl)

/-! ## Visible expressions -/

theorem constant_of_keepsAll {value mask : Canon} (h : keepsAll value mask = true) :
    mask.constant?.isSome = true := by
  rw [keepsAll] at h
  split at h
  · rename_i bits hmask
    obtain ⟨v, hv, -⟩ := Option.bind_eq_some_iff.mp hmask
    rw [hv]
    rfl
  · cases h

/-- An exposed expression has a node right below, or the topmost node stands for it too, or it is a
constant. -/
theorem shown_of_exposed {e s : Expr Nat} (h : s ∈ e.exposed) :
    ofExpr s ∈ (ofExpr e).children ∨ (ofExpr e).Same (ofExpr s) ∨
      (ofExpr s).constant?.isSome = true := by
  have hmade := made_ofExpr e
  generalize hc : ofExpr e = c at hmade
  cases hmade with
  | var | const => cases h
  | castKept tag ty a others =>
    obtain rfl := List.mem_singleton.mp h
    exact .inr (.inl (same_wrap _ _ _))
  | castConst tag ty a v absorbed hv =>
    obtain rfl := List.mem_singleton.mp h
    exact .inr (.inr (by rw [hv]; rfl))
  | notConst tag a v absorbed hv =>
    obtain rfl := List.mem_singleton.mp h
    exact .inr (.inr (by rw [hv]; rfl))
  | trunc | not =>
    obtain rfl := List.mem_singleton.mp h
    exact .inl List.mem_cons_self
  | sum e c hadd hremains =>
    rw [Expr.exposed_of_isAdditive hadd] at h
    obtain ⟨t, ht, rfl⟩ := List.mem_map.mp h
    obtain ⟨-, u, -, heq⟩ := Chain.term_left ht
    have hform : ofExpr t.2.origin.source = t.2 := by rw [heq, source_ofExpr]
    rw [hform]
    cases hremains with
    | const absorbed hterms =>
      rw [hterms] at ht
      cases ht
    | term c others hterms =>
      rw [hterms] at ht
      obtain rfl := List.mem_singleton.mp ht
      exact .inr (.inl (same_wrap _ _ _))
    | sum => exact .inl (List.mem_map_of_mem ht)
  | folded tag op op' a b va vb v absorbed hop ha hb =>
    rw [Expr.exposed_binary hop] at h
    rcases List.mem_pair.mp h with rfl | rfl
    · exact .inr (.inr (by rw [ha]; rfl))
    · exact .inr (.inr (by rw [hb]; rfl))
  | masked tag a b others hmask =>
    rcases List.mem_pair.mp h with rfl | rfl
    · exact .inr (.inl (same_wrap _ _ _))
    · exact .inr (.inr (constant_of_keepsAll hmask))
  | maskedBy tag a b others hmask =>
    rcases List.mem_pair.mp h with rfl | rfl
    · exact .inr (.inr (constant_of_keepsAll hmask))
    · exact .inr (.inl (same_wrap _ _ _))
  | dyadic tag op op' a b hop =>
    rw [Expr.exposed_binary hop] at h
    rcases List.mem_pair.mp h with rfl | rfl <;> exact .inl (by simp [Canon.children])
  | swapped tag op op' a b hop =>
    rw [Expr.exposed_binary hop] at h
    rcases List.mem_pair.mp h with rfl | rfl <;> exact .inl (by simp [Canon.children])
  | extremum tag c a b op absorbed x y hxy hop =>
    rw [Expr.exposed_extremum hop] at h
    rcases hxy with ⟨rfl, rfl⟩ | ⟨rfl, rfl⟩ <;> rcases List.mem_pair.mp h with rfl | rfl <;>
      exact .inl (by simp [Canon.children])
  | select tag c a b hnone =>
    rw [Expr.exposed_select hnone] at h
    exact .inl (List.mem_map_of_mem (f := ofExpr) h)

/-- **Every node of a canonical form is the form of a visible expression.** -/
theorem visible_of_mem_preorder {e : Expr Nat} {c : Canon} (hc : c ∈ (ofExpr e).preorder) :
    ∃ s, e.Visible s ∧ c = ofExpr s := by
  induction hn : e.size using Nat.strongRecOn generalizing e with
  | ind n ih =>
    subst hn
    rw [preorder_eq] at hc
    rcases List.mem_cons.mp hc with rfl | hc
    · exact ⟨e, .root, rfl⟩
    · obtain ⟨a, ha, hc⟩ := List.mem_flatMap.mp hc
      obtain ⟨s, hs, hunder, rfl⟩ := visible_child ha
      obtain ⟨u, hu, heq⟩ := ih _ hunder.size hc rfl
      exact ⟨u, hs.trans hu, heq⟩

/-- What is exposed of an expression lies below it. -/
theorem under_of_exposed {e s : Expr Nat} (h : s ∈ e.exposed) : s.Under e := by
  have hchild : s ∈ e.children → s.Under e :=
    fun hs => Expr.under_of_child hs s.mem_preorder_self
  unfold Expr.exposed at h
  split at h
  · obtain ⟨t, ht, rfl⟩ := List.mem_map.mp h
    obtain ⟨-, u, hu, heq⟩ := Chain.term_left ht
    rw [heq, source_ofExpr]
    exact hu
  split at h
  · split at h
    · exact hchild (List.mem_cons_of_mem _ h)
    · exact hchild h
  · exact hchild h

/-- Every node of a canonical form is the canonical form of an expression below. -/
theorem form_of_mem_preorder {e : Expr Nat} {c : Canon} (hc : c ∈ (ofExpr e).preorder) :
    ∃ s ∈ e.preorder, c = ofExpr s := by
  obtain ⟨s, hs, rfl⟩ := visible_of_mem_preorder hc
  refine ⟨s, ?_, rfl⟩
  clear hc
  induction hs with
  | root => exact e.mem_preorder_self
  | step _ hs ih => exact Expr.mem_preorder_trans ih (under_of_exposed hs).mem

/-- **Every visible expression has a node of the canonical form, or is a constant.** -/
theorem shown_of_visible {e s : Expr Nat} (h : e.Visible s) :
    (∃ c ∈ (ofExpr e).preorder, c.Same (ofExpr s)) ∨ (ofExpr s).constant?.isSome = true := by
  induction h with
  | root => exact .inl ⟨_, mem_preorder_self _, .refl _⟩
  | step _ hs ih =>
    rcases ih with ⟨c, hc, hsame⟩ | hconst
    · rcases shown_of_exposed hs with hchild | hsame' | hconst
      · rw [hsame.children] at hchild
        exact .inl ⟨_, mem_preorder_trans hc (mem_preorder_of_child hchild (mem_preorder_self _)),
          .refl _⟩
      · exact .inl ⟨c, hc, hsame.trans hsame'⟩
      · exact .inr hconst
    · -- nothing but constants stands below a constant
      rcases shown_of_exposed hs with hchild | hsame | hconst'
      · rw [children_of_constant hconst] at hchild
        cases hchild
      · exact .inr (hsame.constant ▸ hconst)
      · exact .inr hconst'

end Canon
end CustomIsa
