import SpecEffects.Proofs.EffectText
import SpecEffects.Proofs.Lexical
import SpecEffects.Signature.Document
import SpecEffects.Proofs.Inference.StateSteps

/-!
What all signature tables have in common that can be read from documents: their effects are canonical
and use no name both for an effect and for a set of variables.
-/
namespace SpecEffects

namespace SignatureTable

theorem separate_of_sharedName? {effect : Effect} (none : sharedName? effect = none) :
    (Vocabulary.usedIn [effect]).Separate := by
  rintro name ⟨_, member, used⟩ ⟨_, member', used'⟩
  cases List.mem_singleton.mp member
  cases List.mem_singleton.mp member'
  have all := List.find?_eq_none.mp none name used
  exact all (decide_eq_true used')

theorem parsed_of_readSignature {name : String} {spec : SignatureSpec} {effect : Effect}
    (read : readSignature name spec = .ok (.fixed effect)) :
    (∃ text, Effect.parse text = .ok effect) ∧ sharedName? effect = none := by
  cases spec with
  | propagate components => cases read
  | effect text =>
    simp only [readSignature] at read
    split at read
    · cases read
    · rename_i parsed
      split at read
      · cases read
      · rename_i unshared
        cases read
        exact ⟨⟨text, parsed⟩, unshared⟩

theorem mem_readSignatures {specs : List (String × SignatureSpec)}
    {signatures : List (String × Signature)} (read : readSignatures specs = .ok signatures)
    {entry : String × Signature} (member : entry ∈ signatures) :
    ∃ spec, readSignature entry.1 spec = .ok entry.2 := by
  induction specs generalizing signatures with
  | nil =>
    cases read
    cases member
  | cons spec rest ih =>
    simp only [readSignatures, bind_eq_ok, pure_eq_ok] at read
    obtain ⟨signature, first, others, later, rfl⟩ := read
    rcases List.mem_cons.mp member with rfl | member
    · exact ⟨_, first⟩
    · exact ih later member

theorem parsed_of_document {text : String} {signatures : SignatureTable}
    (read : ofDocument text = .ok signatures) {operator : String} {effect : Effect}
    (listed : signatures.get? operator = some (.fixed effect)) :
    (∃ text, Effect.parse text = .ok effect) ∧ sharedName? effect = none := by
  unfold ofDocument at read
  split at read
  · cases read
  · simp only [bind_eq_ok, pure_eq_ok] at read
    obtain ⟨entries, run, rfl⟩ := read
    obtain ⟨spec, first⟩ := mem_readSignatures run (SortedMap.mem_of_get?_ofList listed)
    exact parsed_of_readSignature first

theorem fixed_of_document {text : String} {signatures : SignatureTable}
    (read : ofDocument text = .ok signatures) {operator : String} {effect : Effect}
    (listed : signatures.get? operator = some (.fixed effect)) :
    effect.Canonical ∧ (Vocabulary.usedIn [effect]).Separate := by
  obtain ⟨⟨_, parsed⟩, unshared⟩ := parsed_of_document read listed
  exact ⟨(Effect.writable_of_parse parsed).canonical, separate_of_sharedName? unshared⟩

end SignatureTable

end SpecEffects
