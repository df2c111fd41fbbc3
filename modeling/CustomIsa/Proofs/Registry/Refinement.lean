import CustomIsa.Proofs.Registry.Declared
import CustomIsa.Proofs.Registry.Specificity
/-! # Loading more extensions

Extensions that are loaded after others leave the entries of those alone (`Registry.kept_of_append`)
and add entries of their own (`Registry.cases_of_append`). Since a word belongs to its most specific
definition, it stays with the old one unless a new one is more specific, and it never goes from one
old definition to another (`Registry.mostSpecific_of_append`). -/
namespace CustomIsa
namespace Registry

/-- The entry is declared by one of the extensions `es`, and numbered after the entries of `r`. -/
structure AddedBy (r : Registry) (es : List Extension) (e : Entry) : Prop where
  later : r.entries.length ≤ e.index
  declared : ∃ x ∈ es, x.label = e.label ∧ e.definition ∈ x.instructions

theorem map_core_of_load {settings : RegistrySettings} {es : List Extension} {r : Registry}
    (h : load settings es = .ok r) :
    r.entries.map Entry.core = (taken 0 (declared settings.xlen es)).map Entry.core := by
  rw [entries_of_load h, map_core_loadedEntries]

section
variable {settings : RegistrySettings} {es added : List Extension} {r r' : Registry}
  (hload : load settings es = .ok r) (hload' : load settings (es ++ added) = .ok r')
include hload hload'

/-- The entries are those from before, and the entries of the declarations that were added. -/
theorem map_core_of_append :
    r'.entries.map Entry.core = r.entries.map Entry.core ++
      (taken r.entries.length (declared settings.xlen added)).map Entry.core := by
  have hlen : r.entries.length = (declared settings.xlen es).length := by
    rw [← map_declaration_of_load hload, List.length_map]
  rw [map_core_of_load hload', map_core_of_load hload, declared_append, taken_append,
    List.map_append, hlen, Nat.zero_add]

/-- Entries keep their indices, labels and definitions. -/
theorem kept_of_append {e : Entry} (he : e ∈ r.entries) :
    ∃ e' ∈ r'.entries, e'.core = e.core := by
  have hmem : e.core ∈ r'.entries.map Entry.core := by
    rw [map_core_of_append hload hload']
    exact List.mem_append_left _ (List.mem_map_of_mem he)
  exact List.mem_map.mp hmem

/-- An entry is one from before, or an added one. -/
theorem cases_of_append {e' : Entry} (he' : e' ∈ r'.entries) :
    (∃ e ∈ r.entries, e'.core = e.core) ∨ r.AddedBy added e' := by
  have hmem := List.mem_map_of_mem (f := Entry.core) he'
  rw [map_core_of_append hload hload'] at hmem
  rcases List.mem_append.mp hmem with hold | hnew
  · obtain ⟨e, he, hcore⟩ := List.mem_map.mp hold
    exact .inl ⟨e, he, hcore.symm⟩
  · obtain ⟨e, he, hcore⟩ := List.mem_map.mp hnew
    have hindex : e.index = e'.index := congrArg (fun c => c.1) hcore
    have hlabel : e.label = e'.label := congrArg (fun c => c.2.1) hcore
    have hdef : e.definition = e'.definition := congrArg (fun c => c.2.2) hcore
    have hmem := List.mem_map_of_mem (f := Entry.declaration) he
    rw [map_declaration_taken] at hmem
    refine .inr ⟨hindex ▸ (index_of_mem_taken he).1, ?_⟩
    rw [← hlabel, ← hdef]
    exact mem_declared hmem

/-- A word that belonged to a definition belongs to it still, or to an added definition that has
fewer free bits. -/
theorem mostSpecific_of_append {w : Word} {e e' : Entry} (h : r.MostSpecific w e)
    (h' : r'.MostSpecific w e') :
    e'.core = e.core ∨
      r.AddedBy added e' ∧ e'.definition.freeBits < e.definition.freeBits := by
  obtain ⟨kept, hkept, hcore⟩ := kept_of_append hload hload' h.mem
  have hdef : kept.definition = e.definition := congrArg (fun c => c.2.2) hcore
  by_cases heq : kept = e'
  · exact .inl (heq ▸ hcore)
  · have hfree := h'.fewest kept hkept heq (hdef ▸ h.fits)
    rw [hdef] at hfree
    rcases cases_of_append hload hload' h'.mem with ⟨old, hold, hsame⟩ | hadded
    · -- the winner would be an old entry with fewer free bits than the winner of before
      have hodef : e'.definition = old.definition := congrArg (fun c => c.2.2) hsame
      rw [hodef] at hfree
      have hne : old ≠ e := by
        intro hoe
        rw [hoe] at hfree
        omega
      have hless := h.fewest old hold hne (hodef ▸ h'.fits)
      omega
    · exact .inr ⟨hadded, hfree⟩

/-- The lookup of a word finds what it found, or an added definition that has fewer free bits. -/
theorem lookup?_of_append {w : Word} {e : Entry} (h : r.lookup? w = some e) :
    ∃ e', r'.lookup? w = some e' ∧ (e'.core = e.core ∨
      r.AddedBy added e' ∧ e'.definition.freeBits < e.definition.freeBits) := by
  have hspec := (loaded_of_load hload).lookup?_eq_some_iff.mp h
  cases hlookup : r'.lookup? w with
  | none =>
    obtain ⟨kept, hkept, hcore⟩ := kept_of_append hload hload' hspec.mem
    have hdef : kept.definition = e.definition := congrArg (fun c => c.2.2) hcore
    have hmiss := (loaded_of_load hload').lookup?_eq_none_iff.mp hlookup kept hkept
    rw [hdef, hspec.fits] at hmiss
    cases hmiss
  | some e' =>
    have hspec' := (loaded_of_load hload').lookup?_eq_some_iff.mp hlookup
    exact ⟨e', rfl, mostSpecific_of_append hload hload' hspec hspec'⟩

/-- A word that belonged to no definition may belong to added ones only. -/
theorem addedBy_of_lookup? {w : Word} {e' : Entry} (h : r.lookup? w = none)
    (h' : r'.lookup? w = some e') : r.AddedBy added e' := by
  have hspec := (loaded_of_load hload').lookup?_eq_some_iff.mp h'
  rcases cases_of_append hload hload' hspec.mem with ⟨old, hold, hcore⟩ | hadded
  · have hdef : e'.definition = old.definition := congrArg (fun c => c.2.2) hcore
    have hmiss := (loaded_of_load hload).lookup?_eq_none_iff.mp h old hold
    rw [← hdef, hspec.fits] at hmiss
    cases hmiss
  · exact hadded

/-- Encoding gives what it gave, or finds the word shadowed by an added definition. -/
theorem encode_of_append {e e' : Entry} (he : e ∈ r.entries) (hcore : e'.core = e.core)
    (b : Bindings) :
    r'.encode e' b = r.encode e b ∨
      ∃ w winner, Codec.encode e.definition b = .ok w ∧ r'.lookup? w = some winner ∧
        r.AddedBy added winner ∧ r'.encode e' b = .error (.shadowed e.name winner.name w) := by
  have hindex : e'.index = e.index := congrArg (fun c => c.1) hcore
  have hdef : e'.definition = e.definition := congrArg (fun c => c.2.2) hcore
  unfold encode
  rw [hdef, hindex, Entry.name_eq_of_core hcore]
  cases hword : Codec.encode e.definition b with
  | error f => exact .inl rfl
  | ok w =>
    have hr := loaded_of_load hload
    have hfits := Codec.matchesWord_of_encode (hr.valid he) hword
    cases hlookup : r.lookup? w with
    | none =>
      rw [hr.lookup?_eq_none_iff.mp hlookup e he] at hfits
      cases hfits
    | some old =>
      obtain ⟨winner, hwinner, hsame | ⟨hadded, -⟩⟩ := lookup?_of_append hload hload' hlookup
      · have hindices : winner.index = old.index := congrArg (fun c => c.1) hsame
        refine .inl ?_
        simp only [hlookup, hwinner, hindices, Entry.name_eq_of_core hsame]
      · have hne : winner.index ≠ e.index := by
          have hbound : e.index < r.entries.length := by
            have hmem := List.mem_map_of_mem (f := Entry.index) he
            rw [hr.wellFormed.indexed] at hmem
            exact List.mem_range.mp hmem
          have hlater := hadded.later
          omega
        refine .inr ⟨w, winner, rfl, hwinner, hadded, ?_⟩
        simp only [hwinner, hne, if_false]

end

/-- **Loading more extensions only refines.** A word that was decoded is decoded the same way, or as
an added definition with fewer free bits; a word that was refused is refused, or decoded as an added
definition. Every definition keeps its index, and encodes what it did unless an added definition
shadows the word; what it could not encode it still cannot. -/
theorem load_append_refines {settings : RegistrySettings} {es added : List Extension}
    {r r' : Registry} (hload : load settings es = .ok r)
    (hload' : load settings (es ++ added) = .ok r') :
    (∀ w d, r.decode w = .ok d → ∃ d', r'.decode w = .ok d' ∧
      (d'.entry.core = d.entry.core ∧ d'.bindings = d.bindings ∨
        r.AddedBy added d'.entry ∧
          d'.entry.definition.freeBits < d.entry.definition.freeBits)) ∧
    (∀ w f, r.decode w = .error f →
      r'.decode w = .error f ∨ ∃ d', r'.decode w = .ok d' ∧ r.AddedBy added d'.entry) ∧
    ∀ e ∈ r.entries, ∃ e' ∈ r'.entries, e'.core = e.core ∧ ∀ b,
      (∀ w, r.encode e b = .ok w → r'.encode e' b = .ok w ∨
        ∃ winner ∈ r'.entries, r.AddedBy added winner ∧
          r'.encode e' b = .error (.shadowed e.name winner.name w)) ∧
      ∀ f, r.encode e b = .error f → ∃ f', r'.encode e' b = .error f' := by
  refine ⟨?_, ?_, ?_⟩
  · intro w d hdecode
    unfold decode at hdecode ⊢
    cases hlookup : r.lookup? w with
    | none =>
      rw [hlookup] at hdecode
      cases hdecode
    | some e =>
      rw [hlookup] at hdecode
      obtain rfl := Except.ok.inj hdecode
      obtain ⟨e', hlookup', hcase⟩ := lookup?_of_append hload hload' hlookup
      rw [hlookup']
      refine ⟨_, rfl, ?_⟩
      rcases hcase with hcore | hadded
      · have hdef : e'.definition = e.definition := congrArg (fun c => c.2.2) hcore
        exact .inl ⟨hcore, by simp only [hdef]⟩
      · exact .inr hadded
  · intro w f hdecode
    unfold decode at hdecode ⊢
    cases hlookup : r.lookup? w with
    | some e =>
      rw [hlookup] at hdecode
      cases hdecode
    | none =>
      rw [hlookup] at hdecode
      cases hlookup' : r'.lookup? w with
      | none => exact .inl hdecode
      | some e' => exact .inr ⟨_, rfl, addedBy_of_lookup? hload hload' hlookup hlookup'⟩
  · intro e he
    obtain ⟨e', he', hcore⟩ := kept_of_append hload hload' he
    refine ⟨e', he', hcore, fun b => ?_⟩
    have hencode := encode_of_append hload hload' he hcore b
    constructor
    · intro w hw
      rcases hencode with heq | ⟨w', winner, hword, hlookup, hadded, hshadowed⟩
      · exact .inl (heq.trans hw)
      · obtain rfl := Except.ok.inj ((encode_eq_ok hw).1.symm.trans hword)
        have hmem := ((loaded_of_load hload').lookup?_eq_some_iff.mp hlookup).mem
        exact .inr ⟨winner, hmem, hadded, hshadowed⟩
    · intro f hf
      rcases hencode with heq | ⟨w', winner, -, -, -, hshadowed⟩
      · exact ⟨f, heq.trans hf⟩
      · exact ⟨_, hshadowed⟩

/-- The branch of `branches` alone. -/
def longBranch : Extension := { branches with instructions := branches.instructions.take 1 }

/-- The special case of the branch, from another vendor. -/
def shortBranch : Extension :=
  { branches with label := "y", instructions := branches.instructions.drop 1 }

/-- The branch with offset zero goes to the special case once that is loaded too, and can no longer
be encoded as a branch. -/
theorem load_append_refines_branches :
    ∃ r r' w d d', load {} [longBranch] = .ok r ∧
      load {} ([longBranch] ++ [shortBranch]) = .ok r' ∧
      r.decode w = .ok d ∧ d.entry.name = "x.b" ∧ r'.decode w = .ok d' ∧
      r.AddedBy [shortBranch] d'.entry ∧
      d'.entry.definition.freeBits < d.entry.definition.freeBits := by
  have hrun : (load {} [longBranch]).toOption.any (fun r =>
      (load {} ([longBranch] ++ [shortBranch])).toOption.any fun r' =>
        (r.find? "x.b").any fun e =>
          (r.encode e (.ofList [("off", 0), ("rs", 9)])).toOption.any fun w =>
            (r.decode w).toOption.any fun d => d.entry.name = "x.b" && d.entry.index = 0 &&
              (r'.decode w).toOption.any fun d' => d'.entry.index = 1) = true := by
    decide +kernel
  obtain ⟨r, hload, hrun⟩ := Option.any_eq_true _ _ |>.mp hrun
  obtain ⟨r', hload', hrun⟩ := Option.any_eq_true _ _ |>.mp hrun
  obtain ⟨e, -, hrun⟩ := Option.any_eq_true _ _ |>.mp hrun
  obtain ⟨w, -, hrun⟩ := Option.any_eq_true _ _ |>.mp hrun
  obtain ⟨d, hdecode, hrun⟩ := Option.any_eq_true _ _ |>.mp hrun
  rw [Bool.and_eq_true, Bool.and_eq_true, decide_eq_true_iff, decide_eq_true_iff] at hrun
  obtain ⟨⟨hname, hindex⟩, hrun⟩ := hrun
  obtain ⟨other, hother, hindex'⟩ := Option.any_eq_true _ _ |>.mp hrun
  rw [decide_eq_true_iff] at hindex'
  have hload := eq_ok_of_toOption hload
  have hload' := eq_ok_of_toOption hload'
  have hdecode := eq_ok_of_toOption hdecode
  obtain ⟨d', hdecode', ⟨hcore, -⟩ | hadded⟩ :=
    (load_append_refines hload hload').1 w d hdecode
  · obtain rfl := Except.ok.inj (hdecode'.symm.trans (eq_ok_of_toOption hother))
    have hsame : d'.entry.index = d.entry.index := congrArg (fun c => c.1) hcore
    omega
  · exact ⟨r, r', w, d, d', hload, hload', hdecode, hname, hdecode', hadded⟩

end Registry
end CustomIsa
