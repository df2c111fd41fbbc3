import CustomIsa.Proofs.Canon.Chain
/-! # The width of a sum

Once terms of a chain have cancelled, the width of the sum is worked out from the terms that are
left (`Chain.sumInfo`). Their widths are added up one after another, each time settled in the type
of the sum. On the way the sum may leave the type and come back, so the width need not bound the sum
of the terms so far. It bounds a number that agrees with that sum modulo the size of the type, and
is that sum as long as the width is below that of the type (`Width.Tracks`). At the end the width
bounds the sum reduced into the type (`Chain.settles_sumInfo`). -/
namespace CustomIsa
open Bits

namespace Width
variable {ty : IntType} {i j : Width} {u v : Int}

/-- The width bounds a number that agrees with `v` modulo the size of the type, and is `v` if the
width is below that of the type. -/
structure Tracks (ty : IntType) (i : Width) (v : Int) : Prop where
  pos : 1 ≤ i.width
  number : ∃ a, Within i.width i.signed a ∧ a ≡ v [ZMOD 2 ^ ty.bits] ∧ (i.width < ty.bits → a = v)

/-- The width is that of `v` settled in the type. -/
structure Settles (ty : IntType) (i : Width) (v : Int) : Prop where
  bounds : i.Bounds ty (ty.reduce v)
  exact : i.overflow = false → ty.reduce v = v
  wide : i.overflow = true → i.width = ty.bits

theorem tracks_of_within (hpos : 1 ≤ i.width) (hv : Within i.width i.signed v) : i.Tracks ty v :=
  ⟨hpos, v, hv, Int.ModEq.refl v, fun _ => rfl⟩

theorem Settles.tracks (hty : ty.Proper) (h : i.Settles ty v) : i.Tracks ty v := by
  refine ⟨h.bounds.pos, ty.reduce v, h.bounds.range, IntType.reduce_modEq hty v, fun hlt => ?_⟩
  cases hover : i.overflow with
  | false => exact h.exact hover
  | true =>
    rw [h.wide hover] at hlt
    exact absurd hlt (Nat.lt_irrefl _)

/-- Settling an exact width for a number that agrees with `v` settles `v`. -/
theorem settles_settle {exact : Nat} {sign : Bool} {a : Int} (hty : ty.Proper)
    (ha : Within (max 1 exact) sign a) (hmod : a ≡ v [ZMOD 2 ^ ty.bits])
    (heq : exact ≤ ty.bits → a = v) : (settle ty exact sign).Settles ty v := by
  obtain ⟨hbounds, hkeep⟩ := bounds_settle hty ha
  rw [IntType.reduce_congr hty hmod] at hbounds hkeep
  refine ⟨hbounds, fun hover => ?_, width_settle_of_overflow⟩
  obtain ⟨-, hle⟩ := width_settle_of_exact hover
  rw [hkeep hover, heq (by omega)]

theorem settles_const (hty : ty.Proper) (k : Int) : (const ty k).Settles ty k :=
  settles_settle hty ((within_valueWidth k).mono (Nat.le_max_right _ _)) (Int.ModEq.refl k)
    fun _ => rfl

theorem settles_zero (hty : ty.Proper) : (settle ty 1 false).Settles ty 0 :=
  settles_settle hty (by decide) (Int.ModEq.refl 0) fun _ => rfl

/-- **One addition**: the width of the sum of two tracked numbers is settled. -/
theorem settles_add (hty : ty.Proper) (hi : i.Tracks ty v) (hj : j.Tracks ty u) (negated : Bool) :
    (binary ty (if negated then .sub else .add) i j none).Settles ty
      (v + Chain.signed negated u) := by
  obtain ⟨hpi, a, hra, hma, hea⟩ := hi
  obtain ⟨-, b, hrb, hmb, heb⟩ := hj
  obtain ⟨hw, hua, hub⟩ := within_unify hpi hra hrb
  obtain ⟨hlei, hlej⟩ := width_le_unify i j
  -- below the width of the type both operands are the numbers themselves
  have hkeep : (unify i j).1 + 1 ≤ ty.bits → a = v ∧ b = u :=
    fun hle => ⟨hea (by omega), heb (by omega)⟩
  cases negated with
  | false =>
    refine settles_settle hty ((hua.add hw hub).mono (Nat.le_max_right _ _)) (hma.add hmb) ?_
    intro hle
    obtain ⟨rfl, rfl⟩ := hkeep hle
    rfl
  | true =>
    refine settles_settle hty ((hua.sub hw hub).mono (Nat.le_max_right _ _)) (hma.sub hmb) ?_
    intro hle
    obtain ⟨rfl, rfl⟩ := hkeep hle
    rfl

end Width

namespace Chain
open Width
variable {env : Env} {ty : IntType}

/-- The widths track signed numbers that add up to the given one. -/
inductive Tracked (ty : IntType) : List (Bool × Width) → Int → Prop where
  | nil : Tracked ty [] 0
  | cons (negated : Bool) {w : Width} {ws : List (Bool × Width)} {v r : Int}
    (hw : w.Tracks ty v) (hws : Tracked ty ws r) :
    Tracked ty ((negated, w) :: ws) (signed negated v + r)

theorem addUp_some {acc : Width} {ws : List (Bool × Width)} {v r : Int} (hty : ty.Proper)
    (hacc : acc.Settles ty v) (hws : Tracked ty ws r) :
    ∃ w, addUp ty (some acc) ws = some w ∧ w.Settles ty (v + r) := by
  induction hws generalizing acc v with
  | nil => exact ⟨acc, by rw [addUp], by rwa [Int.add_zero]⟩
  | cons negated hw _ ih =>
    rw [addUp, ← Int.add_assoc]
    exact ih (settles_add hty (hacc.tracks hty) hw negated)

/-- Adding up operands, other than a single one that is added, settles their sum. -/
theorem addUp_none {ws : List (Bool × Width)} {r : Int} (hty : ty.Proper) (hws : Tracked ty ws r)
    (hne : ws ≠ []) (hmore : ∀ w, ws ≠ [(false, w)]) :
    ∃ w, addUp ty none ws = some w ∧ w.Settles ty r := by
  cases hws with
  | nil => exact absurd rfl hne
  | cons negated hw hrest =>
    cases negated with
    | true =>
      have hfirst := settles_add hty ((settles_zero hty).tracks hty) hw true
      rw [Int.zero_add] at hfirst
      rw [addUp]
      exact addUp_some hty hfirst hrest
    | false =>
      cases hrest with
      | nil => exact absurd rfl (hmore _)
      | cons negated' hw' hrest' =>
        rw [addUp, addUp, ← Int.add_assoc]
        exact addUp_some hty (settles_add hty hw hw' negated') hrest'

theorem tracked_terms {terms : List (Bool × Canon)} {last : List (Bool × Width)} {k : Int}
    (hterms : ∀ t ∈ terms, t.2.info.Tracks ty (t.2.sourceValue env)) (hlast : Tracked ty last k) :
    Tracked ty (terms.map (fun t => (t.1, t.2.info)) ++ last) (termsValue env terms + k) := by
  induction terms with
  | nil => rwa [termsValue, Int.zero_add]
  | cons t ts ih =>
    rw [termsValue, Int.add_assoc]
    exact .cons t.1 (hterms t List.mem_cons_self)
      (ih fun u hu => hterms u (List.mem_cons_of_mem _ hu))

/-- **The width worked out for a sum is that of the sum settled in the type.** -/
theorem settles_sumInfo {terms : List (Bool × Canon)} {k : Int} (hty : ty.Proper)
    (hterms : ∀ t ∈ terms, t.2.info.Tracks ty (t.2.sourceValue env)) (hne : terms ≠ [])
    (hmore : ∀ c, terms = [(false, c)] → k ≠ 0) :
    (sumInfo ty terms k).Settles ty (termsValue env terms + k) := by
  have hlast : Tracked ty (if k = 0 then [] else [(false, Width.const ty k)]) k := by
    split
    · rename_i hk
      rw [hk]
      exact .nil
    · have hconst := Tracked.cons false ((settles_const hty k).tracks hty) .nil
      rwa [Int.add_zero] at hconst
  have hsingle : ∀ w, terms.map (fun t => (t.1, t.2.info)) ++
      (if k = 0 then [] else [(false, Width.const ty k)]) ≠ [(false, w)] := by
    intro w heq
    cases terms with
    | nil => exact hne rfl
    | cons t ts =>
      obtain ⟨hfirst, hrest⟩ := List.cons.inj heq
      obtain ⟨hts, hk⟩ := List.append_eq_nil_iff.mp hrest
      have hk : k = 0 := by simpa using hk
      obtain ⟨negated, c⟩ := t
      obtain ⟨rfl, -⟩ := Prod.mk.inj hfirst
      exact hmore c (by rw [List.map_eq_nil_iff.mp hts]) hk
  obtain ⟨w, hw, hsettles⟩ := addUp_none hty (tracked_terms hterms hlast)
    (by simp [hne]) hsingle
  rw [sumInfo]
  simp only [hw, Option.getD_some]
  exact hsettles

/-- The width that is kept for what remains of a sum bounds its value. -/
theorem bounds_of_remains {e : Expr Nat} {i : Width} (hproper : e.Proper) (hadm : e.Admits env)
    (hreduce : e.ty.reduce (sumValue env e) = e.value env)
    (hterms : ∀ t ∈ (ofSum e).left, t.2.info.Tracks e.ty (t.2.sourceValue env))
    (hne : (ofSum e).left ≠ [])
    (hmore : ∀ c, (ofSum e).left = [(false, c)] → (ofSum e).constantIn e ≠ 0)
    (hinfo : i = e.info ∨ i = sumInfo e.ty (ofSum e).left ((ofSum e).constantIn e)) :
    i.Bounds e.ty (e.value env) := by
  rcases hinfo with rfl | rfl
  · exact (Expr.info_sound hproper hadm).1
  · exact hreduce ▸ (settles_sumInfo hproper.ty hterms hne hmore).bounds

end Chain
end CustomIsa
