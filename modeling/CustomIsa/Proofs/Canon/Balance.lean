import CustomIsa.Proofs.Canon.Chain
import CustomIsa.Proofs.Foundations
/-! # The balance of a chain

Sorting and cancelling leave a list of terms that is in order and does not hold a key with both
signs (`Chain.settled_left`). Such a list is determined by its balances: by how often each key is
added, less how often it is subtracted (`Chain.Settled.signature_eq_iff`). -/
namespace CustomIsa
namespace Chain
variable {ts us : List (Bool × Canon)} {ch : Chain}

/-- The signs and keys of terms. -/
def signature (ts : List (Bool × Canon)) : List (Bool × String) := ts.map fun t => (t.1, t.2.key)

theorem signature_cons (t : Bool × Canon) (ts : List (Bool × Canon)) :
    signature (t :: ts) = (t.1, t.2.key) :: signature ts := rfl

theorem termKeys_eq (ts : List (Bool × Canon)) :
    Canon.termKeys ts = (signature ts).map fun s => (if s.1 then "-" else "+") ++ s.2 := by
  induction ts with
  | nil => rfl
  | cons t ts ih => rw [Canon.termKeys, ih, signature_cons, List.map_cons]

/-- How often a key is added, less how often it is subtracted. -/
def balance (key : String) (ts : List (Bool × Canon)) : Int :=
  weigh (fun c => if c.key = key then 1 else 0) ts

theorem balance_eq_count (key : String) (ts : List (Bool × Canon)) :
    balance key ts = (signature ts).count (false, key) - (signature ts).count (true, key) := by
  induction ts with
  | nil => rfl
  | cons t ts ih =>
    obtain ⟨negated, c⟩ := t
    rw [balance] at ih ⊢
    rw [weigh, ih, signature_cons, List.count_cons, List.count_cons]
    by_cases hkey : c.key = key
    · cases negated <;> simp [signed, hkey] <;> omega
    · cases negated <;> simp [signed, hkey]

theorem balance_eq_zero {key : String} (h : ∀ t ∈ ts, t.2.key ≠ key) : balance key ts = 0 := by
  have hcount : ∀ negated, (signature ts).count (negated, key) = 0 := by
    intro negated
    refine List.count_eq_zero.mpr fun hmem => ?_
    obtain ⟨t, ht, heq⟩ := List.mem_map.mp hmem
    exact h t ht (Prod.mk.inj heq).2
  rw [balance_eq_count, hcount, hcount]
  rfl

theorem balance_left (key : String) (ch : Chain) : balance key ch.left = balance key ch.terms := by
  refine weigh_left fun t _ u _ _ hkey => ?_
  rw [hkey]

/-! ## Order -/

/-- Whether a signed key comes before another: by key, then the added one first. -/
def Before (s t : Bool × String) : Prop := s.2 < t.2 ∨ s.2 = t.2 ∧ (s.1 = false ∨ t.1 = true)

theorem termLe_iff (s t : Bool × Canon) :
    termLe s t = true ↔ Before (s.1, s.2.key) (t.1, t.2.key) := by
  simp [termLe, Before]

theorem before_total (s t : Bool × String) : Before s t ∨ Before t s := by
  unfold Before
  by_cases hlt : s.2 < t.2
  · exact .inl (.inl hlt)
  by_cases hgt : t.2 < s.2
  · exact .inr (.inl hgt)
  have heq : s.2 = t.2 := String.le_antisymm (String.not_lt.mp hgt) (String.not_lt.mp hlt)
  cases hs : s.1
  · exact .inl (.inr ⟨heq, .inl rfl⟩)
  · exact .inr (.inr ⟨heq.symm, .inr rfl⟩)

theorem before_trans {s t u : Bool × String} (h : Before s t) (h' : Before t u) : Before s u := by
  rcases h with hlt | ⟨heq, hsign⟩
  · rcases h' with hlt' | ⟨heq', -⟩
    · exact .inl (String.lt_trans hlt hlt')
    · exact .inl (heq' ▸ hlt)
  · rcases h' with hlt' | ⟨heq', hsign'⟩
    · exact .inl (heq ▸ hlt')
    · refine .inr ⟨heq.trans heq', ?_⟩
      rcases hsign with hs | ht
      · exact .inl hs
      · exact .inr (hsign'.resolve_left (by simp [ht]))

theorem before_antisymm {s t : Bool × String} (h : Before s t) (h' : Before t s) : s = t := by
  rcases h with hlt | ⟨heq, hsign⟩
  · rcases h' with hgt | ⟨heq, -⟩
    · exact absurd hgt (String.lt_asymm hlt)
    · exact absurd (heq ▸ hlt) (String.lt_irrefl _)
  · rcases h' with hgt | ⟨-, hsign'⟩
    · exact absurd (heq ▸ hgt) (String.lt_irrefl _)
    · refine Prod.ext ?_ heq
      cases hs : s.1 <;> cases ht : t.1 <;> simp_all

theorem pairwise_sort (ts : List (Bool × Canon)) :
    (signature (Sorting.sort termLe ts)).Pairwise Before := by
  have hsorted : (Sorting.sort termLe ts).Pairwise fun s t => termLe s t = true := by
    refine Sorting.pairwise_sort (fun s t => ?_) (fun s t u hst htu => ?_) ts
    · rw [termLe_iff, termLe_iff]
      exact before_total _ _
    · rw [termLe_iff] at hst htu ⊢
      exact before_trans hst htu
  exact List.pairwise_map.mpr (hsorted.imp fun h => (termLe_iff _ _).mp h)

theorem pairwise_left (ch : Chain) : (signature ch.left).Pairwise Before :=
  (pairwise_sort ch.terms).sublist ((cancel_sublist [] _).map _)

/-! ## Cancelling -/

/-- No key is both added and subtracted. -/
def OneSided (ts : List (Bool × Canon)) : Prop :=
  ∀ s ∈ ts, ∀ t ∈ ts, s.2.key = t.2.key → s.1 = t.1

theorem sign_of_takeOpposite {t : Bool × Canon} (h : takeOpposite t ts = none) :
    ∀ s ∈ ts, s.2.key = t.2.key → s.1 = t.1 := by
  induction ts with
  | nil => exact fun s hs => nomatch hs
  | cons u us ih =>
    rw [takeOpposite] at h
    split at h
    · cases h
    · rename_i hu
      intro s hs hkey
      rcases List.mem_cons.mp hs with rfl | hs
      · by_contra hne
        exact hu ⟨hne, hkey⟩
      · exact ih (Option.map_eq_none_iff.mp h) s hs hkey

theorem takeOpposite_of_sign {t : Bool × Canon} (h : ∀ s ∈ ts, s.2.key = t.2.key → s.1 = t.1) :
    takeOpposite t ts = none := by
  induction ts with
  | nil => rfl
  | cons u us ih =>
    have hu : ¬(u.1 ≠ t.1 ∧ u.2.key = t.2.key) :=
      fun hopposite => hopposite.1 (h u List.mem_cons_self hopposite.2)
    rw [takeOpposite, if_neg hu, ih fun s hs => h s (List.mem_cons_of_mem _ hs)]
    rfl

/-- One step of cancelling: a term without an opposite keeps the list one-sided. -/
theorem OneSided.concat {t : Bool × Canon} (h : OneSided ts) (hnone : takeOpposite t ts = none) :
    OneSided (ts ++ [t]) := by
  have hsame := sign_of_takeOpposite hnone
  intro u hu v hv hkey
  rw [List.mem_append, List.mem_singleton] at hu hv
  rcases hu with hu | rfl <;> rcases hv with hv | rfl
  · exact h u hu v hv hkey
  · exact hsame u hu hkey
  · exact (hsame v hv hkey.symm).symm
  · rfl

theorem OneSided.cancel {kept : List (Bool × Canon)} (h : OneSided kept) :
    OneSided (cancel kept ts).1 := by
  induction ts generalizing kept with
  | nil => exact h
  | cons t ts ih =>
    rw [Chain.cancel]
    split
    · rename_i other rest hfind
      have hsub := (takeOpposite_sublist hfind).subset
      exact ih fun u hu v hv => h u (hsub hu) v (hsub hv)
    · rename_i hnone
      exact ih (h.concat hnone)

/-- Nothing cancels among terms of which no key is both added and subtracted. -/
theorem cancel_of_oneSided {kept : List (Bool × Canon)} (h : OneSided (kept ++ ts)) :
    cancel kept ts = (kept ++ ts, []) := by
  induction ts generalizing kept with
  | nil => rw [Chain.cancel, List.append_nil]
  | cons t ts ih =>
    have hnone : takeOpposite t kept = none :=
      takeOpposite_of_sign fun s hs hkey => h s (by simp [hs]) t (by simp) hkey
    have hmove : kept ++ [t] ++ ts = kept ++ t :: ts := by simp
    rw [Chain.cancel, hnone, ih (hmove ▸ h), hmove]

/-- What becomes of a chain in which nothing cancels: a constant, its only term, or the sum of all
its terms in order. -/
inductive Uncancelled (e : Expr Nat) (ch : Chain) : Canon → Prop where
  | const (absorbed : List Nat) (hterms : ch.terms = []) :
    Uncancelled e ch (.const (.ofExpr e absorbed) (e.ty.reduce (ch.constantIn e)))
  | term (c : Canon) (others : List Nat) (hterms : ch.terms = [(false, c)])
    (hk : ch.constantIn e = 0) : Uncancelled e ch (c.wrap e others)
  | sum (absorbed adds : List Nat) (hne : ch.terms ≠ [])
    (hmore : ∀ c, ch.terms = [(false, c)] → ch.constantIn e ≠ 0) :
    Uncancelled e ch
      (.sum (.ofExpr e absorbed) (Sorting.sort termLe ch.terms) (ch.constantIn e) adds)

theorem uncancelled_toCanon (e : Expr Nat) (h : OneSided ch.terms) :
    Uncancelled e ch (ch.toCanon e) := by
  have hperm := Sorting.sort_perm termLe ch.terms
  have hcancel : cancel [] (Sorting.sort termLe ch.terms) = (Sorting.sort termLe ch.terms, []) :=
    cancel_of_oneSided fun s hs t ht => h s (hperm.mem_iff.mp hs) t (hperm.mem_iff.mp ht)
  have hk : (if e.info.overflow = true then e.ty.reduce ch.constant else ch.constant) =
      ch.constantIn e := rfl
  rw [toCanon, hcancel]
  simp only [hk, hperm.length_eq, if_true]
  cases hsorted : Sorting.sort termLe ch.terms with
  | nil =>
    rw [hsorted] at hperm
    exact .const _ (List.nil_perm.mp hperm)
  | cons t more =>
    obtain ⟨negated, c⟩ := t
    rw [hsorted] at hperm
    simp only
    split
    · rename_i honly
      obtain ⟨hneg, hmore, hzero⟩ := honly
      obtain rfl : negated = false := by simpa using hneg
      obtain rfl : more = [] := by simpa using hmore
      exact .term c _ (List.singleton_perm.mp hperm).symm hzero
    · rename_i honly
      rw [← hsorted]
      refine .sum _ _ ?_ ?_
      · intro hnil
        rw [hnil] at hperm
        cases List.perm_nil.mp hperm
      · intro c' hc' hzero
        rw [hc'] at hperm
        obtain ⟨hpair, rfl⟩ := List.cons.inj (List.perm_singleton.mp hperm)
        obtain ⟨rfl, rfl⟩ := Prod.mk.inj hpair
        exact honly ⟨rfl, rfl, hzero⟩

/-! ## Settled terms -/

/-- The terms are in order, and no key is both added and subtracted. -/
structure Settled (ts : List (Bool × Canon)) : Prop where
  sorted : (signature ts).Pairwise Before
  oneSided : OneSided ts

/-- **What is left of a chain is settled.** -/
theorem settled_left (ch : Chain) : Settled ch.left :=
  ⟨pairwise_left ch, OneSided.cancel fun _ hs => nomatch hs⟩

theorem settled_singleton (t : Bool × Canon) : Settled [t] := by
  refine ⟨List.pairwise_singleton _ _, fun s hs u hu _ => ?_⟩
  rw [List.mem_singleton.mp hs, List.mem_singleton.mp hu]

theorem OneSided.count_eq_zero (h : OneSided ts) (key : String) :
    (signature ts).count (false, key) = 0 ∨ (signature ts).count (true, key) = 0 := by
  by_contra hboth
  simp only [List.count_eq_zero, not_or, Classical.not_not] at hboth
  obtain ⟨s, hs, hse⟩ := List.mem_map.mp hboth.1
  obtain ⟨t, ht, hte⟩ := List.mem_map.mp hboth.2
  obtain ⟨hs₁, hs₂⟩ := Prod.mk.inj hse
  obtain ⟨ht₁, ht₂⟩ := Prod.mk.inj hte
  have hsame := h s hs t ht (hs₂.trans ht₂.symm)
  rw [hs₁, ht₁] at hsame
  cases hsame

/-- **Settled terms are determined by their balances.** -/
theorem Settled.signature_eq_iff (h : Settled ts) (h' : Settled us) :
    signature ts = signature us ↔ ∀ key, balance key ts = balance key us := by
  constructor
  · intro heq key
    rw [balance_eq_count, balance_eq_count, heq]
  · intro hbalance
    refine List.Perm.eq_of_pairwise (fun s t _ _ => before_antisymm) h.sorted h'.sorted ?_
    refine List.perm_iff_count.mpr fun s => ?_
    -- one of the two signs is absent on each side, so the difference tells both counts
    obtain ⟨negated, key⟩ := s
    have hdiff := hbalance key
    rw [balance_eq_count, balance_eq_count] at hdiff
    have hts := h.oneSided.count_eq_zero key
    have hus := h'.oneSided.count_eq_zero key
    cases negated <;> omega

end Chain
end CustomIsa
