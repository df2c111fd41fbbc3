import CustomIsa.Proofs.Canon.KeySound
import CustomIsa.Proofs.Codec
import CustomIsa.Proofs.Match.OperandOrder
import CustomIsa.Proofs.Registry.Declared
import CustomIsa.Proofs.Template.Compiled
/-! # Templates match what is written after them

A template and an expression become sums in two ways: nested additions, subtractions and negations
are gathered from the text of a template when it is compiled, and from the tree of an expression
when its form is made. Where the expression is the template written out, over distinct variables
that are as wide as registers, the two agree. What is gathered from a part of the template aligns,
term by term, with the chain of the same part of the expression (`Match.Gathers`), and what the part
compiles to aligns with its form (`Match.Agree`, `Match.agree_of_writes`). So the instruction is
found at the root of its own template written out. -/
namespace CustomIsa
open Canon (ofExpr)
open Template (compile gather gatherAll Gathered largestSumOf)

namespace Match
variable {limits : Limits} {d : Definition} {n : Nat} {ty : IntType} {var : String → String}

/-! ## Alignments over distinct variables -/

theorem guardsHold_nil (c : Canon) : GuardsHold limits [] c := by
  intro guard hguard
  cases hguard

theorem AlignedTerms.append {ts us : List (Bool × Template)} {cs ds : List (Bool × Canon)}
    {ms ns : List (Operand × Slot)} (h : AlignedTerms limits ts cs ms)
    (h' : AlignedTerms limits us ds ns) :
    AlignedTerms limits (ts ++ us) (cs ++ ds) (ms ++ ns) := by
  induction ts generalizing cs ms with
  | nil =>
    cases h
    exact h'
  | cons t ts ih =>
    cases h with
    | cons hfirst hrest =>
      rw [List.append_assoc]
      exact .cons hfirst (ih hrest)

theorem alignedTerms_singleton_iff {negated : Bool} {t : Template} {cs : List (Bool × Canon)}
    {ms : List (Operand × Slot)} :
    AlignedTerms limits [(negated, t)] cs ms ↔
      ∃ c, cs = [(negated, c)] ∧ Aligned limits t c ms := by
  constructor
  · intro h
    cases h with
    | cons hfirst hrest =>
      cases hrest
      rw [List.append_nil]
      exact ⟨_, rfl, hfirst⟩
  · rintro ⟨c, rfl, h⟩
    rw [← List.append_nil ms]
    exact .cons h .nil

/-- The operands of the given names meet nodes, one each and in this order, and no node is wider
than the given number of bits. -/
structure Covers (bits : Nat) (names : List String) (ms : List (Operand × Slot)) : Prop where
  names : ms.map (fun m => m.1.name) = names
  narrow : ∀ m ∈ ms, ∃ c, m.2 = .node c ∧ c.info.width ≤ bits

namespace Covers
variable {bits : Nat} {names names' : List String} {ms ms' : List (Operand × Slot)}

theorem append (h : Covers bits names ms) (h' : Covers bits names' ms') :
    Covers bits (names ++ names') (ms ++ ms') := by
  refine ⟨?_, List.forall_mem_append.mpr ⟨h.narrow, h'.narrow⟩⟩
  rw [List.map_append, h.names, h'.names]

theorem of_similar (h : Covers bits names ms) (hms : List.Forall₂ SimilarMeeting ms ms') :
    Covers bits names ms' := by
  obtain ⟨rfl, hnarrow⟩ := h
  induction hms with
  | nil => exact ⟨rfl, hnarrow⟩
  | @cons m m' ms ms' hm _ ih =>
    obtain ⟨⟨c, hc, hwidth⟩, hrest⟩ := List.forall_mem_cons.mp hnarrow
    obtain ⟨hnames, hnarrow'⟩ := ih hrest
    obtain ⟨hop, hslot⟩ := hm
    refine ⟨?_, List.forall_mem_cons.mpr ⟨?_, hnarrow'⟩⟩
    · rw [List.map_cons, List.map_cons, hnames, hop]
    · rw [hc] at hslot
      generalize m'.2 = slot at hslot
      cases hslot with
      | @node _ c' hsimilar =>
        refine ⟨c', rfl, ?_⟩
        have hinfo : c.info = c'.info := hsimilar.origin.info
        rwa [← hinfo]

/-- **Operands that are wide enough meet what they cover consistently, if every name occurs
once.** -/
theorem consistent (h : Covers bits names ms) (hnames : names.Nodup)
    (hwide : ∀ m ∈ ms, limits.xlen ≤ m.1.width) (hbits : bits ≤ limits.xlen) :
    Consistent limits ms := by
  have hnode : ∀ op v, (op, Slot.imm v) ∉ ms := by
    intro op v hv
    obtain ⟨c, hc, -⟩ := h.narrow _ hv
    cases hc
  refine ⟨fun op c hc => ?_, fun op c c' hc hc' => ?_, fun op v hv => absurd hv (hnode op v),
    fun op v _ hv _ => absurd hv (hnode op v)⟩
  · obtain ⟨c', heq, hwidth⟩ := h.narrow _ hc
    cases heq
    have hop := hwide _ hc
    rw [fitsRegister, if_pos hop]
    simp only at hop hwidth
    simp only [decide_eq_true_eq]
    omega
  · rw [← h.names] at hnames
    have heq := List.inj_on_of_nodup_map hnames hc hc' rfl
    cases heq
    rfl

end Covers

/-! ## Parts of a template -/

/-- From one collection of terms to the other, terms are gathered that align with the chain of the
expression, unless one of them has too large a sum. -/
def Gathers (limits : Limits) (n : Nat) (ty : IntType) (negated : Bool) (e : Expr Nat)
    (names : List String) (g g' : Gathered) : Prop :=
  ∃ ts, g' = { g with terms := g.terms ++ ts } ∧
    (largestSumOf ts ≤ n → ∃ ms, AlignedTerms limits ts (Chain.ofExpr ty negated e).terms ms ∧
      Covers ty.bits names ms)

/-- On its own and in a sum around it, the template part aligns with the expression. -/
structure Agree (d : Definition) (limits : Limits) (n : Nat) (ty : IntType) (s : Sexp)
    (e : Expr Nat) : Prop where
  compiled : ∀ {t u u'}, compile d s u = .ok (t, u') → t.largestSum ≤ n →
    ∃ ms, Aligned limits t (ofExpr e) ms ∧ Covers ty.bits s.atoms ms
  gathered : ∀ {negated g g' u u'}, gather d negated g s u = .ok (g', u') →
    Gathers limits n ty negated e s.atoms g g'

/-- The terms of two operands make up those of their sum or difference. -/
theorem Gathers.binary {tag : Nat} {op : BinaryOp} {a b : Expr Nat} {negated : Bool}
    {names names' : List String} {g g' g'' : Gathered} (hbits : 32 ≤ ty.bits)
    (he : (Expr.binary tag op a b).Native ty) (hop : DyadicOp.ofBinary? op = none)
    (ha : Gathers limits n ty negated a names g g')
    (hb : Gathers limits n ty (negated ^^ op.subtracts) b names' g' g'') :
    Gathers limits n ty negated (.binary tag op a b) (names ++ names') g g'' := by
  obtain ⟨ts, rfl, ha⟩ := ha
  obtain ⟨us, rfl, hb⟩ := hb
  refine ⟨ts ++ us, by rw [List.append_assoc], fun hlarge => ?_⟩
  rw [Template.largestSumOf_append] at hlarge
  obtain ⟨ms, haligned, hcovers⟩ := ha (by omega)
  obtain ⟨ms', haligned', hcovers'⟩ := hb (by omega)
  refine ⟨ms ++ ms', ?_, hcovers.append hcovers'⟩
  rw [Chain.ofExpr_binary hbits he hop]
  exact haligned.append haligned'

theorem Gathers.neg {tag : Nat} {a : Expr Nat} {negated : Bool} {names : List String}
    {g g' : Gathered} (hbits : 32 ≤ ty.bits) (he : (Expr.unary tag .neg a).Native ty)
    (ha : Gathers limits n ty (!negated) a names g g') :
    Gathers limits n ty negated (.unary tag .neg a) names g g' := by
  rw [Gathers, Chain.ofExpr_neg hbits he]
  exact ha

/-- What is no sum is one term of the sums around it. -/
theorem Agree.of_leaf {s : Sexp} {e : Expr Nat} (hbits : 32 ≤ ty.bits) (he : e.ReadsOnce ty)
    (hadd : e.isAdditive = false)
    (hpush : ∀ {negated g g' u u'}, gather d negated g s u = .ok (g', u') →
      ∃ t, compile d s u = .ok (t, u') ∧ g' = g.push negated t)
    (hcompiled : ∀ {t u u'}, compile d s u = .ok (t, u') → t.largestSum ≤ n →
      ∃ ms, Aligned limits t (ofExpr e) ms ∧ Covers ty.bits s.atoms ms) :
    Agree d limits n ty s e := by
  refine ⟨hcompiled, fun {negated g g' u u'} hgather => ?_⟩
  obtain ⟨t, ht, rfl⟩ := hpush hgather
  refine ⟨[(negated, t)], rfl, fun hlarge => ?_⟩
  rw [Template.largestSumOf_singleton] at hlarge
  obtain ⟨ms, haligned, hcovers⟩ := hcompiled ht hlarge
  refine ⟨ms, ?_, hcovers⟩
  rw [Chain.ofExpr_of_not_isAdditive he.native hadd,
    Chain.leaf_of_constant (Canon.nativeForm hbits he).constant]
  exact alignedTerms_singleton_iff.mpr ⟨_, rfl, haligned⟩

/-- The definition reads registers, the type is that of whole registers, and sums may have as many
terms as given, up to the cap. -/
structure Suits (d : Definition) (limits : Limits) (n : Nat) (ty : IntType) : Prop where
  registers : ∀ op ∈ d.inputs, op.kind = .register
  bits : 32 ≤ ty.bits
  proper : ty.Proper
  terms : min n 64 ≤ limits.maxTerms

section
variable {e : Expr Nat} {ch : Chain} {c : Canon} {ms : List (Operand × Slot)}
  (hform : Chain.Uncancelled e ch c) (hzero : ch.constantIn e = 0)
include hform hzero

/-- A chain of one added term has the form of that term. -/
theorem aligned_term {t : Template} {bits : Nat} {names : List String}
    (h : AlignedTerms limits [(false, t)] ch.terms ms) (hcovers : Covers bits names ms) :
    ∃ ms', Aligned limits t c ms' ∧ Covers bits names ms' := by
  obtain ⟨d, hd, haligned⟩ := alignedTerms_singleton_iff.mp h
  cases hform with
  | const _ hnil => cases hnil.symm.trans hd
  | term c others hterm =>
    cases hterm.symm.trans hd
    obtain ⟨ms', haligned', hms⟩ := haligned.of_similar (Canon.similar_wrap d e others)
    exact ⟨ms', haligned', hcovers.of_similar hms⟩
  | sum _ _ _ hsum => exact absurd hzero (hsum d hd)

/-- Any other chain has the form of a sum, of all its terms in some order. -/
theorem aligned_sum {ts : List (Bool × Template)} (hne : ts ≠ []) (hmore : ∀ t, ts ≠ [(false, t)])
    (hcount : ts.length ≤ limits.maxTerms) (h : AlignedTerms limits ts ch.terms ms) :
    Aligned limits (.sum [] ts 0 none) c ms := by
  have hlength := h.length_eq
  cases hform with
  | const _ hnil =>
    rw [hnil] at hlength
    exact absurd (List.length_eq_zero_iff.mp hlength.symm) hne
  | term c others hterm =>
    rw [hterm] at h
    cases h with
    | cons _ hrest =>
      cases hrest
      exact absurd rfl (hmore _)
  | sum absorbed adds =>
    have hperm := Sorting.sort_perm Chain.termLe ch.terms
    have hconst : MeetsConstant 0 none (ch.constantIn e) [] := by
      rw [hzero]
      exact .equal
    refine .sum (guardsHold_nil _) ?_ hperm.symm hconst h
    rw [hperm.length_eq]
    omega

end

/-- The terms of a sum, put together, align with the form of the sum: in both, a single added term
stands for itself. -/
theorem aligned_of_gathers {e : Expr Nat} {names : List String} {g : Gathered} {t : Template}
    (hsuits : Suits d limits n ty) (he : e.ReadsOnce ty) (hfew : e.names.length ≤ 64)
    (hadd : e.isAdditive = true)
    (hgathers : Gathers limits n ty false e names {} g) (ht : g.toTemplate [] = .ok t)
    (hlarge : t.largestSum ≤ n) :
    ∃ ms, Aligned limits t (ofExpr e) ms ∧ Covers ty.bits names ms := by
  obtain ⟨-, hbits, hproper, hmax⟩ := hsuits
  have hchain := (Canon.nativeForm hbits he).chain false
  have hform := Canon.uncancelled_ofExpr hbits he hadd hchain
  have hzero : (Chain.ofExpr ty false e).constantIn e = 0 :=
    Chain.constantIn_zero (he.native.ty_eq hbits ▸ hproper) hchain.constant
  obtain ⟨ts, rfl, hterms⟩ := hgathers
  rw [List.nil_append] at ht
  rcases Gathered.toTemplate_eq_ok ht with rfl | ⟨rfl, hne, hmore⟩
  · rw [Template.largestSumOf_singleton] at hterms
    obtain ⟨ms, haligned, hcovers⟩ := hterms hlarge
    exact aligned_term hform hzero haligned hcovers
  · rw [Template.largestSum] at hlarge
    obtain ⟨ms, haligned, hcovers⟩ := hterms (by omega)
    have hlength := hchain.length_le
    rw [haligned.length_eq] at hlength
    exact ⟨ms, aligned_sum hform hzero hne hmore (by omega) haligned, hcovers⟩

theorem agree_atom {tag : Nat} {name : String} (hsuits : Suits d limits n ty)
    (hliteral : Sexp.literal? name = none) (he : (Expr.var tag (var name) ty).ReadsOnce ty) :
    Agree d limits n ty (.atom name []) (.var tag (var name) ty) := by
  refine .of_leaf hsuits.bits he rfl (fun {negated g g' u u'} h => ?_)
    (fun {t u u'} h _ => ?_)
  · rw [gather] at h
    rw [compile]
    rcases Gathered.pushName_eq_ok hliteral h with ⟨op, hop, -, himmediate⟩ | hpush
    · cases (hsuits.registers op hop).symm.trans himmediate
    · exact hpush
  · rw [compile] at h
    obtain ⟨op, hop, rfl, rfl⟩ := Template.input_of_ofName hliteral h
    rw [ofExpr, Sexp.atoms, Template.ofOperand, hsuits.registers op hop]
    refine ⟨_, .register (guardsHold_nil _), rfl, ?_⟩
    exact List.forall_mem_singleton.mpr ⟨_, rfl, Nat.le_refl _⟩

theorem Agree.not {tag : Nat} {s : Sexp} {a : Expr Nat} (hbits : 32 ≤ ty.bits)
    (he : (Expr.unary tag .not a).ReadsOnce ty) (ha : Agree d limits n ty s a) :
    Agree d limits n ty (.app "not" [] [s]) (.unary tag .not a) := by
  have hform := Canon.nativeForm hbits he.operand
  have hhead : Template.Head.ofName? "not" = some (.monadic .not) := rfl
  refine .of_leaf hbits he rfl (Template.gather_plain rfl) (fun {t u u'} h hlarge => ?_)
  obtain ⟨a', v, ha', rfl⟩ := Template.compile_monadic hhead h
  rw [Template.largestSum] at hlarge
  obtain ⟨ms, haligned, hcovers⟩ := ha.compiled ha' hlarge
  rw [Canon.ofExpr_not tag hform.constant, Sexp.atoms, Sexp.atomsOfAll_singleton]
  exact ⟨ms, .monadic (guardsHold_nil _) haligned, hcovers⟩

theorem Agree.dyadic {tag : Nat} {head : String} {op : BinaryOp} {op' : DyadicOp} {s s' : Sexp}
    {a b : Expr Nat} (hbits : 32 ≤ ty.bits)
    (hhead : Template.Head.ofName? head = some (.dyadic op'))
    (hop : DyadicOp.ofBinary? op = some op') (he : (Expr.binary tag op a b).ReadsOnce ty)
    (ha : Agree d limits n ty s a) (hb : Agree d limits n ty s' b) :
    Agree d limits n ty (.app head [] [s, s']) (.binary tag op a b) := by
  have hconstant := (Canon.nativeForm hbits he.left).constant
  have hconstant' := (Canon.nativeForm hbits he.right).constant
  have hplain := Template.additive_eq_none hhead (by simp)
  refine .of_leaf hbits he (Chain.isAdditive_of_dyadic hop) (Template.gather_plain hplain)
    (fun {t u u'} h hlarge => ?_)
  obtain ⟨a', b', v, w, ha', hb', rfl⟩ := Template.compile_dyadic hhead h
  rw [Template.largestSum] at hlarge
  obtain ⟨ms, haligned, hcovers⟩ := ha.compiled ha' (by omega)
  obtain ⟨ms', haligned', hcovers'⟩ := hb.compiled hb' (by omega)
  rw [Sexp.atoms, Sexp.atomsOfAll, Sexp.atomsOfAll_singleton]
  refine ⟨ms ++ ms', ?_, hcovers.append hcovers'⟩
  obtain ⟨o, hform | ⟨hcomm, hform⟩⟩ := Canon.ofExpr_dyadic tag hop hconstant hconstant'
  · rw [hform]
    exact .direct (guardsHold_nil _) haligned haligned'
  · rw [hform]
    exact .swapped (guardsHold_nil _) hcomm haligned haligned'

/-- An addition, subtraction or negation agrees if its operands, gathered one after another, make up
its chain. -/
theorem Agree.of_gathers {head : String} {op : Template.AdditiveOp} {args : List Sexp}
    {e : Expr Nat} (hsuits : Suits d limits n ty)
    (hhead : Template.AdditiveOp.ofName? head = some op) (he : e.ReadsOnce ty)
    (hfew : e.names.length ≤ 64)
    (hadd : Template.checkArity head (.additive op) args.length = .ok () → e.isAdditive = true)
    (hgathers : ∀ {negated g g' u u'}, gatherAll d op negated 0 g args u = .ok (g', u') →
      Gathers limits n ty negated e (Sexp.atomsOfAll args) g g') :
    Agree d limits n ty (.app head [] args) e := by
  have hhead' : Template.Head.ofName? head = some (.additive op) := by
    rw [Template.Head.ofName?, hhead]
    rfl
  refine ⟨fun {t u u'} h hlarge => ?_, fun {negated g g' u u'} h => ?_⟩
  · obtain ⟨harity, g, hg, ht⟩ := Template.compile_additive hhead' h
    rw [Sexp.atoms]
    exact aligned_of_gathers hsuits he hfew (hadd harity) (hgathers hg) ht hlarge
  · rw [Template.gather_additive hhead] at h
    rw [Sexp.atoms]
    exact hgathers h

mutual

/-- **A template agrees with what is written out after it,** part by part: the induction is on how
it is written out. -/
theorem agree_of_writes (hsuits : Suits d limits n ty) : ∀ {s : Sexp} {e : Expr Nat},
    s.Writes var ty e → e.ReadsOnce ty → e.names.length ≤ 64 → Agree d limits n ty s e
  | _, _, .atom hliteral, he, _ => agree_atom hsuits hliteral he
  | _, _, .not ha, he, hfew => (agree_of_writes hsuits ha he.operand hfew).not hsuits.bits he
  | _, _, .neg ha, he, hfew => by
    have hagree := agree_of_writes hsuits ha he.operand hfew
    refine .of_gathers hsuits rfl he hfew (fun _ => rfl) (fun {negated g g' u u'} h => ?_)
    obtain ⟨next, v, hs, hnil⟩ := Template.gatherAll_cons h
    obtain ⟨rfl, rfl⟩ := Template.gatherAll_nil hnil
    rw [Template.AdditiveOp.negates, Bool.xor_true] at hs
    rw [Sexp.atomsOfAll_singleton]
    exact (hagree.gathered hs).neg hsuits.bits he.native
  | _, _, .sub ha hb, he, hfew => by
    rw [Expr.names, List.length_append] at hfew
    have hagree := agree_of_writes hsuits ha he.left (by omega)
    have hagree' := agree_of_writes hsuits hb he.right (by omega)
    refine .of_gathers hsuits rfl he ?_ (fun _ => rfl) (fun {negated g g' u u'} h => ?_)
    · rwa [Expr.names, List.length_append]
    obtain ⟨next, v, hs, hrest⟩ := Template.gatherAll_cons h
    obtain ⟨last, w, hs', hnil⟩ := Template.gatherAll_cons hrest
    obtain ⟨rfl, rfl⟩ := Template.gatherAll_nil hnil
    have hfirst : (negated ^^ Template.AdditiveOp.negates .sub 0) = negated := Bool.xor_false _
    rw [hfirst] at hs
    rw [Sexp.atomsOfAll, Sexp.atomsOfAll_singleton]
    exact .binary hsuits.bits he.native rfl (hagree.gathered hs) (hagree'.gathered hs')
  | _, _, .dyadic hhead hop _ ha hb, he, hfew => by
    rw [Expr.names, List.length_append] at hfew
    exact .dyadic hsuits.bits hhead hop he (agree_of_writes hsuits ha he.left (by omega))
      (agree_of_writes hsuits hb he.right (by omega))
  | _, _, .add h, he, hfew => by
    refine .of_gathers hsuits rfl he hfew (fun harity => ?_)
      (fun hgather => gathers_of_writes hsuits h he hfew hgather)
    -- One operand only is no sum, but then the addition does not compile on its own.
    cases h with
    | first => cases harity
    | next => rfl

theorem gathers_of_writes (hsuits : Suits d limits n ty) : ∀ {ss : List Sexp} {e : Expr Nat},
    Sexp.WritesSum var ty ss e → e.ReadsOnce ty → e.names.length ≤ 64 →
    ∀ {negated position g g' u u'}, gatherAll d .add negated position g ss u = .ok (g', u') →
    Gathers limits n ty negated e (Sexp.atomsOfAll ss) g g'
  | _, _, .first ha, he, hfew, negated, position, g, g', u, u', h => by
    obtain ⟨next, v, hs, hnil⟩ := Template.gatherAll_cons h
    obtain ⟨rfl, rfl⟩ := Template.gatherAll_nil hnil
    rw [Template.AdditiveOp.negates, Bool.xor_false] at hs
    rw [Sexp.atomsOfAll_singleton]
    exact (agree_of_writes hsuits ha he hfew).gathered hs
  | _, _, .next ha hb, he, hfew, negated, position, g, g', u, u', h => by
    rw [Expr.names, List.length_append] at hfew
    obtain ⟨next, v, hss, hs⟩ := Template.gatherAll_concat h
    have hfirst := gathers_of_writes hsuits ha he.left (by omega) hss
    have hlast := (agree_of_writes hsuits hb he.right (by omega)).gathered hs
    rw [Sexp.atomsOfAll_append, Sexp.atomsOfAll_singleton]
    exact .binary hsuits.bits he.native rfl hfirst hlast

end

end Match

/-! ## Whole templates -/

/-- **Registers have segments of their own,** so a word has no more of them than it has bits. -/
theorem Definition.Valid.length_inputs_le {d : Definition} (hd : d.Valid)
    (hregisters : ∀ op ∈ d.inputs, op.kind = .register) : d.inputs.length ≤ d.wordSize.bits := by
  have hsub : ∀ op ∈ d.inputs, op ∈ d.operands := fun op hop => (List.mem_filter.mp hop).1
  let lowest (op : Operand) : Nat := ((d.layout.segments op.name).map Segment.lo).headD 0
  have hsegment : ∀ op ∈ d.inputs, ∃ s ∈ d.layout.fields, s.operand = op.name ∧
      lowest op = s.lo := by
    intro op hop
    have hcarried := hd.carried op (hsub op hop)
    rw [Operand.CarriedBy, hregisters op hop] at hcarried
    obtain ⟨s, hs, -⟩ := hcarried
    have hmem : s ∈ d.layout.segments op.name := by rw [hs]; exact List.mem_cons_self
    refine ⟨s, (Codec.mem_segments.mp hmem).1, (Codec.mem_segments.mp hmem).2, ?_⟩
    simp only [lowest, hs]
    rfl
  have hnames := hd.distinct_inputs
  have hnodup : (d.inputs.map lowest).Nodup := by
    refine (List.Nodup.of_map _ hnames).map_on fun op hop op' hop' heq => ?_
    obtain ⟨s, hs, hname, hlow⟩ := hsegment op hop
    obtain ⟨s', hs', hname', hlow'⟩ := hsegment op' hop'
    have hstart : s.lo = s'.lo := by rw [← hlow, ← hlow', heq]
    have hin := hd.layout.field_within hs
    have hin' := hd.layout.field_within hs'
    have hsame : s = s' := hd.layout.field_unique hs hs' ⟨Nat.le_refl s.lo, hin.1⟩
      ⟨by omega, by omega⟩
    refine List.inj_on_of_nodup_map hnames hop hop' ?_
    rw [← hname, ← hname', hsame]
  have hrange : d.inputs.map lowest ⊆ List.range d.wordSize.bits := by
    intro lo hlo
    obtain ⟨op, hop, rfl⟩ := List.mem_map.mp hlo
    obtain ⟨s, hs, -, hlow⟩ := hsegment op hop
    have hin := hd.layout.field_within hs
    rw [hlow, List.mem_range]
    omega
  have hlength := (List.subperm_of_subset hnodup hrange).length_le
  rwa [List.length_map, List.length_range] at hlength

/-- The names in a template that reads every input once are those of the inputs. -/
theorem Template.atoms_perm {d : Definition} {s : Sexp} {t : Template} (hd : d.Valid)
    {u u' : Flags d} (h : compile d s u = .ok (t, u'))
    (hliteral : ∀ name ∈ s.atoms, Sexp.literal? name = none)
    (honce : ∀ op ∈ d.inputs, s.atoms.count op.name = 1) :
    s.atoms.Perm (d.inputs.map Operand.name) := by
  refine List.perm_iff_count.mpr fun name => ?_
  by_cases hname : name ∈ d.inputs.map Operand.name
  · rw [List.count_eq_one_of_mem hd.distinct_inputs hname]
    obtain ⟨op, hop, rfl⟩ := List.mem_map.mp hname
    exact honce op hop
  · have hother : name ∉ s.atoms := by
      intro hatom
      obtain ⟨op, hop, rfl⟩ := input_of_compile s h name hatom (hliteral name hatom)
      exact hname (List.mem_map_of_mem hop)
    rw [List.count_eq_zero_of_not_mem hname, List.count_eq_zero_of_not_mem hother]

/-- **A template that reads every input once aligns with what is written out after it,
consistently,** so an attempt there succeeds. -/
theorem Match.attempt_of_writes {limits : Limits} {n : Nat} {ty : IntType} {var : String → String}
    {e : Entry} {text : String} {s : Sexp} {t : Template} {q : Expr Nat}
    (hvalid : e.definition.Valid) (ht : e.template = some t)
    (hcompiled : Template.ofText e.definition text = .ok t) (hs : Sexp.ofText text = .ok s)
    (hsuits : Suits e.definition limits n ty) (hxlen : ty.bits = limits.xlen)
    (hwide : ∀ op ∈ e.definition.inputs, limits.xlen ≤ op.width) (hsums : t.largestSum ≤ n)
    (hwrites : s.Writes var ty q) (hq : q.ReadsOnce ty)
    (hatoms : s.atoms.Perm (e.definition.inputs.map Operand.name)) :
    (attempt limits e (ofExpr q)).isSome = true := by
  have hreads := (Template.compiled_ofText hcompiled).1
  have hfew : q.names.length ≤ 64 := by
    have hinputs := hvalid.length_inputs_le hsuits.registers
    have hbits := e.definition.wordSize.bits_le
    rw [hwrites.names_eq, List.length_map, hatoms.length_eq, List.length_map]
    omega
  obtain ⟨used, hcompile⟩ := Template.compile_of_ofText hs hcompiled
  obtain ⟨ms, haligned, hcovers⟩ :=
    (agree_of_writes hsuits hwrites hq hfew).compiled hcompile hsums
  have hconsistent : Consistent limits ms := by
    refine hcovers.consistent (hatoms.nodup_iff.mpr hvalid.distinct_inputs) (fun m hm => ?_)
      (Nat.le_of_eq hxlen)
    exact hwide m.1 (haligned.placed hreads m hm).mem
  exact (attempt_isSome_iff_consistent hvalid ht
    (hreads.mono fun _ hop => (List.mem_filter.mp hop).1) ⟨q, rfl⟩).mpr ⟨ms, haligned, hconsistent⟩

namespace Matcher
open Match

/-- **An instruction is found where its template is written out.** In a loaded registry, take a
definition whose template can be written out (`Sexp.written?`: it has no guards and no literals, and
its operators are those of expressions), reads every input once, reads registers only that are not
narrower than the registers of the machine, and has no larger sums than are matched. The template
written out over distinct variables of the unsigned type of a register is an expression, and at the
root of every text that spells it there is a candidate for the definition. -/
theorem written_template_found {config : RegistrySettings} {extensions : List Extension}
    {r : Registry} (hload : Registry.load config extensions = .ok r) (settings : MatchSettings)
    {e : Entry} (he : e ∈ r.entries) {text : String} (htext : e.definition.template = some text)
    {s : Sexp} (hs : Sexp.ofText text = .ok s)
    (honce : ∀ op ∈ e.definition.inputs, s.atoms.count op.name = 1)
    (hinputs : ∀ op ∈ e.definition.inputs, op.kind = .register ∧ r.xlen ≤ op.width)
    (hsums : ∀ t, e.template = some t → t.largestSum ≤ settings.maxSumTerms)
    {var : String → String} {vars : Typing}
    (hdistinct : (e.definition.inputs.map fun op => var op.name).Nodup)
    (hvars : ∀ op ∈ e.definition.inputs,
      Expr.IsWord (var op.name) ∧ vars.get? (var op.name) = some ⟨r.xlen, false⟩)
    {p : Expr Unit} (hp : s.written? var ⟨r.xlen, false⟩ = some p) :
    Expr.ofText vars p.render = .ok p ∧
      ∀ spelled, Expr.ofText vars spelled = .ok p →
        ∃ tree, ExprTree.ofText vars spelled = .ok tree ∧
          (Matcher.new r settings).FindsAt tree.root e := by
  have hr := Registry.loaded_of_load hload
  have hvalid := hr.valid he
  obtain ⟨t, ht, hcompiled⟩ := Registry.ofText_of_load hload he htext
  have hwrites := Sexp.writes_of_written s hp
  obtain ⟨used, hcompile⟩ := Template.compile_of_ofText hs hcompiled
  have hatoms := Template.atoms_perm hvalid hcompile hwrites.literal_eq_none honce
  have hnames : p.names.Perm (e.definition.inputs.map fun op => var op.name) := by
    have hmap := hatoms.map var
    rwa [List.map_map, ← hwrites.names_eq] at hmap
  have hwords : ∀ name ∈ p.names, Expr.IsWord name ∧ vars.get? name = some ⟨r.xlen, false⟩ := by
    intro name hname
    obtain ⟨op, hop, rfl⟩ := List.mem_map.mp (hnames.mem_iff.mp hname)
    exact hvars op hop
  refine ⟨Expr.ofText_render (hwrites.native.readable hwords), fun spelled hspelled =>
    ⟨ExprTree.ofExpr p, by rw [ExprTree.ofText, hspelled]; rfl, ?_⟩⟩
  have hnumbered := hwrites.number 0
  have hsame : (p.number 0).1.names = p.names := by rw [hnumbered.names_eq, hwrites.names_eq]
  have hreadsOnce : (p.number 0).1.ReadsOnce ⟨r.xlen, false⟩ := by
    refine ⟨hnumbered.native, ?_, ?_⟩
    · rw [hsame]
      exact hnames.nodup_iff.mpr hdistinct
    · rw [hsame]
      exact fun name hname => ExprTree.plain_of_isWord (hwords name hname).1
  have hsuits : Suits e.definition (Matcher.new r settings).limits settings.maxSumTerms
      ⟨r.xlen, false⟩ := by
    refine ⟨fun op hop => (hinputs op hop).1, ?_, ?_, Nat.le_refl _⟩
    · rcases Registry.xlen_eq_of_load hload with h | h <;> simp [h]
    · rcases Registry.xlen_eq_of_load hload with h | h <;> simp [IntType.Proper, h]
  have hattempt := attempt_of_writes hvalid ht hcompiled hs hsuits rfl
    (fun op hop => (hinputs op hop).2) (hsums t ht) hnumbered hreadsOnce hatoms
  exact findsAt_iff.mpr (.inl ⟨(mem_shaped_iff hr hattempt).mpr he, hattempt⟩)

/-- The product of a difference, the second operand of which is negated, and of an operand negated
twice. -/
def differenceProduct : Definition where
  mnemonic := "muldiff"
  operands := Bundled.registers 32 true .inout
  layout := .registerForm 43 3 40
  template := some "(mul (sub rd (neg rs1)) (neg (neg rs2)))"

/-- Signs are gathered and cancel in the template as in the expression. -/
theorem written_template_found_product :
    ∃ r e tree, Registry.load {} [⟨"x", "X", [differenceProduct]⟩] = .ok r ∧ e ∈ r.entries ∧
      e.definition = differenceProduct ∧
      ExprTree.ofText (.ofList [("rd", .u32), ("rs1", .u32), ("rs2", .u32)])
        "(rd - -rs1) * --rs2" = .ok tree ∧
      (Matcher.new r {}).FindsAt tree.root e := by
  have hrun : (Registry.load {} [⟨"x", "X", [differenceProduct]⟩]).toOption.any (fun r =>
      r.xlen = 32 && r.entries.any fun e => e.definition = differenceProduct &&
        e.template.all fun t => t.largestSum ≤ 8) = true := by
    decide +kernel
  have hparse : (Sexp.ofText "(mul (sub rd (neg rs1)) (neg (neg rs2)))").toOption.any (fun s =>
      s.atoms = ["rd", "rs1", "rs2"] && (s.written? id .u32).any fun p =>
        Expr.ofText (.ofList [("rd", .u32), ("rs1", .u32), ("rs2", .u32)])
          "(rd - -rs1) * --rs2" = .ok p) = true := by
    decide +kernel
  obtain ⟨r, hload, hrun⟩ := Option.any_eq_true _ _ |>.mp hrun
  rw [Bool.and_eq_true, decide_eq_true_iff, List.any_eq_true] at hrun
  obtain ⟨hxlen, e, he, hentry⟩ := hrun
  rw [Bool.and_eq_true, decide_eq_true_iff, Option.all_eq_true] at hentry
  obtain ⟨hdefinition, hsums⟩ := hentry
  obtain ⟨s, hs, hparse⟩ := Option.any_eq_true _ _ |>.mp hparse
  rw [Bool.and_eq_true, decide_eq_true_iff, Option.any_eq_true] at hparse
  obtain ⟨hatoms, p, hp, hspelled⟩ := hparse
  have hload := eq_ok_of_toOption hload
  have hwritten : s.written? id ⟨r.xlen, false⟩ = some p := by rw [hxlen]; exact hp
  have hinputs : e.definition.inputs = Bundled.registers 32 true .inout := by
    rw [hdefinition]
    rfl
  have hwords : ∀ op ∈ Bundled.registers 32 true .inout, Expr.IsWord op.name := by
    simp only [Bundled.registers, Bundled.register, List.forall_mem_cons]
    exact ⟨⟨'r', ['d'], rfl, rfl, List.all_eq_true.mp rfl⟩,
      ⟨'r', ['s', '1'], rfl, rfl, List.all_eq_true.mp rfl⟩,
      ⟨'r', ['s', '2'], rfl, rfl, List.all_eq_true.mp rfl⟩, by simp⟩
  have hvars : ∀ op ∈ Bundled.registers 32 true .inout,
      NameMap.get? (.ofList [("rd", .u32), ("rs1", .u32), ("rs2", .u32)]) op.name =
        some (⟨32, false⟩ : IntType) := by
    decide +kernel
  obtain ⟨-, hfound⟩ := written_template_found hload {} he (hdefinition ▸ rfl)
    (eq_ok_of_toOption hs) (by rw [hinputs, hatoms]; decide) (by rw [hinputs, hxlen]; decide)
    (fun t ht => of_decide_eq_true (hsums t ht)) (by rw [hinputs]; decide)
    (by rw [hinputs, hxlen]; exact fun op hop => ⟨hwords op hop, hvars op hop⟩) hwritten
  obtain ⟨tree, htree, hfinds⟩ := hfound _ (of_decide_eq_true hspelled)
  exact ⟨r, e, tree, hload, he, hdefinition, htree, hfinds⟩

end Matcher
end CustomIsa
