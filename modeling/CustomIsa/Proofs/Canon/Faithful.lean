import CustomIsa.Proofs.Canon.SumWidth
import CustomIsa.Proofs.Operator
/-! # Canonical forms and values

The topmost node of a canonical form computes a number from the values of the expressions right
below it (`Canon.topValue`). The value of the expression is that number, reduced into one type or
not at all (`Expr.wrapsIn`): this is what it means for a form to be faithful (`Canon.Faithful`).
A node that stands for an expression of its own is faithful by the soundness of widths
(`Canon.faithful_of_bounds`), and a node into which an outer one collapsed if both are reduced into
the same type (`Canon.faithful_of_wrap`). The key of a form does not tell the type. -/
namespace CustomIsa
open Bits

namespace Canon

/-- What the topmost node computes from the values of the expressions right below it. -/
def topValue (env : Env) : Canon → Int
  | .var _ name => env name
  | .const _ v => v
  | .monadic _ .not a => -a.sourceValue env - 1
  | .monadic _ (.trunc _) a => a.sourceValue env
  | .dyadic _ op a b => op.apply (a.sourceValue env) (b.sourceValue env)
  | .select _ c a b => if c.sourceValue env ≠ 0 then a.sourceValue env else b.sourceValue env
  | .sum _ terms k _ => Chain.termsValue env terms + k

/-- Whether the topmost node may compute a number outside its type. -/
def lossy : Canon → Bool
  | .var _ _ | .const _ _ => false
  | .monadic o .not _ => !o.ty.signed
  | .monadic o (.trunc _) _ | .dyadic o _ _ _ | .select o _ _ _ | .sum o _ _ _ => o.info.overflow

end Canon

/-- The type into which the number that the canonical form computes is reduced, if it may change by
that: the type of the expression if that does not hold the form, and else the type of the form. -/
def Expr.wrapsIn (e : Expr Nat) : Option IntType :=
  let c := Canon.ofExpr e
  if c.constant?.isSome then none
  else if !e.ty.holds c.info.width c.info.signed then some e.ty
  else if c.lossy then some c.ty
  else none

/-- A number, reduced into a type if there is one. -/
def IntType.reduceIn : Option IntType → Int → Int
  | none, v => v
  | some ty, v => ty.reduce v

namespace Canon
variable {env : Env} {m s : Expr Nat}

/-- The value of the expression is what its canonical form computes, reduced into the type in which
the expression wraps, and has the width of the form. -/
structure Faithful (env : Env) (e : Expr Nat) : Prop where
  value : e.value env = IntType.reduceIn e.wrapsIn ((ofExpr e).topValue env)
  proper : ∀ ty, e.wrapsIn = some ty → ty.Proper
  pos : 1 ≤ (ofExpr e).info.width
  range : Within (ofExpr e).info.width (ofExpr e).info.signed (e.value env)

theorem Faithful.constant (h : Faithful env m) {v : Int} (hv : (ofExpr m).constant? = some v) :
    m.value env = v := by
  have hwraps : m.wrapsIn = none := by rw [Expr.wrapsIn, hv]; rfl
  rw [h.value, hwraps]
  generalize ofExpr m = c at hv
  cases c with
  | const => exact Option.some.inj hv
  | var | monadic | dyadic | select | sum => cases hv

theorem topValue_wrap (c : Canon) (outer : Expr Nat) (others : List Nat) :
    (c.wrap outer others).topValue env = c.topValue env := by
  cases c with
  | monadic _ op => cases op <;> rfl
  | var | const | dyadic | select | sum => rfl

theorem info_wrap (c : Canon) (outer : Expr Nat) (others : List Nat) :
    (c.wrap outer others).info = c.info := by
  rw [info, info, origin_wrap]
  rfl

/-- **A node of its own is faithful**, if its width is sound and it computes the right number. -/
theorem faithful_of_bounds (hproper : m.Proper)
    (hbounds : (ofExpr m).info.Bounds m.ty (m.value env)) (hty : (ofExpr m).ty = m.ty)
    (hreduce : m.value env = m.ty.reduce ((ofExpr m).topValue env))
    (hkeep : (ofExpr m).lossy = false → m.value env = (ofExpr m).topValue env) :
    Faithful env m := by
  have hwraps : m.wrapsIn = none ∧ (ofExpr m).lossy = false ∨ m.wrapsIn = some m.ty := by
    rw [Expr.wrapsIn]
    simp only [hbounds.held, hty]
    cases hconst : (ofExpr m).constant? with
    | some v =>
      -- a constant is kept as it is
      have hlossy : (ofExpr m).lossy = false := by
        generalize ofExpr m = c at hconst
        cases c with
        | const => rfl
        | var | monadic | dyadic | select | sum => cases hconst
      exact .inl ⟨rfl, hlossy⟩
    | none =>
      cases (ofExpr m).lossy with
      | false => exact .inl ⟨rfl, rfl⟩
      | true => exact .inr rfl
  refine ⟨?_, ?_, hbounds.pos, hbounds.range⟩
  · rcases hwraps with ⟨hnone, hlossy⟩ | hsome
    · rw [hnone]
      exact hkeep hlossy
    · rw [hsome]
      exact hreduce
  · intro ty hwrap
    rcases hwraps with ⟨hnone, -⟩ | hsome
    · rw [hnone] at hwrap
      cases hwrap
    · rw [hsome] at hwrap
      exact Option.some.inj hwrap ▸ hproper.ty

/-- A node that stands for the expression alone is faithful, if it computes the exact value. -/
theorem faithful_of_exact {absorbed : List Nat} (hproper : m.Proper) (hadm : m.Admits env)
    (horigin : (ofExpr m).origin = .ofExpr m absorbed)
    (htop : (ofExpr m).topValue env = m.exactValue env)
    (hkeep : (ofExpr m).lossy = false → m.value env = m.exactValue env) : Faithful env m := by
  have hinfo : (ofExpr m).info = m.info := by rw [info, horigin]; rfl
  have hty : (ofExpr m).ty = m.ty := by rw [ty, horigin]; rfl
  refine faithful_of_bounds hproper ?_ hty ?_ ?_
  · rw [hinfo]
    exact (Expr.info_sound hproper hadm).1
  · rw [htop]
    exact Expr.value_eq_reduce hproper hadm
  · rw [htop]
    exact hkeep

/-- The same for a node that is lossy where the expression overflows. -/
theorem faithful_of_overflow {absorbed : List Nat} (hproper : m.Proper) (hadm : m.Admits env)
    (horigin : (ofExpr m).origin = .ofExpr m absorbed)
    (hlossy : (ofExpr m).lossy = m.info.overflow) (hcompl : m.isComplement = false)
    (htop : (ofExpr m).topValue env = m.exactValue env) : Faithful env m := by
  refine faithful_of_exact hproper hadm horigin htop fun hkeep => ?_
  rw [hlossy] at hkeep
  exact (Expr.info_sound hproper hadm).2 hkeep hcompl

/-- A constant is faithful if it is the value of the expression. -/
theorem faithful_of_const {absorbed : List Nat} {v : Int} (hproper : m.Proper)
    (hadm : m.Admits env) (hc : ofExpr m = .const (.ofExpr m absorbed) v)
    (hv : m.value env = v) : Faithful env m := by
  have hbounds := (Expr.info_sound hproper hadm).1
  subst hv
  refine faithful_of_bounds hproper ?_ ?_ ?_ ?_ <;> rw [hc]
  · exact hbounds
  · rfl
  · exact (IntType.reduce_eq_self hproper.ty (Expr.has_value hproper hadm)).symm
  · exact fun _ => rfl

/-- **A node into which an outer one collapsed is faithful**, if the outer expression reduces the
value of the inner one and wraps in the same type. -/
theorem faithful_of_wrap {others : List Nat} (hproper : m.Proper)
    (hc : ofExpr m = (ofExpr s).wrap m others) (hs : Faithful env s)
    (hwraps : m.wrapsIn = s.wrapsIn) (hvalue : m.value env = m.ty.reduce (s.value env))
    (hconst : (ofExpr s).constant? = none ∨ m.value env = s.value env) : Faithful env m := by
  have hsame : m.value env = s.value env := by
    rcases hconst with hnone | hsame
    · rw [hvalue]
      -- the outer type holds all values of the form, or it is the type in which both wrap
      by_cases hheld : m.ty.holds (ofExpr s).info.width (ofExpr s).info.signed = true
      · exact IntType.reduce_eq_self hproper.ty (IntType.has_of_holds hheld hs.range)
      · have hwrap : m.wrapsIn = some m.ty := by
          rw [Expr.wrapsIn]
          simp [hc, constant_wrap, hnone, info_wrap, hheld]
        rw [hs.value, ← hwraps, hwrap]
        exact IntType.reduce_eq_self hproper.ty (IntType.has_reduce hproper.ty _)
    · exact hsame
  refine ⟨?_, ?_, ?_, ?_⟩
  · rw [hsame, hs.value, hwraps, hc, topValue_wrap]
  · rw [hwraps]
    exact hs.proper
  · rw [hc, info_wrap]
    exact hs.pos
  · rw [hc, info_wrap, hsame]
    exact hs.range

end Canon
end CustomIsa
