import LexicalPath.Path.Encoded
import LexicalPath.Proofs.Normal.WellFormed
import LexicalPath.Proofs.Utf8.Conversion

/-!
# Paths in UTF-8 are paths

An operation on bytes does to their text what the operation on texts does, and its result can always
be written as bytes again. Bytes that have no text have no result.
-/

namespace LexicalPath

namespace Utf8

theorem ofText?_of_isWellFormed (t : Text) (h : t.isWellFormed = true) :
    ofText? t = some (ofText t) := by
  unfold ofText ofText?
  rw [if_pos h]
  rfl

theorem isWellFormed_of_toText? (s : Bytes) (t : Text) (h : toText? s = some t) :
    t.isWellFormed = true :=
  ((ofText?_eq_some_iff t s).mp ((ofText?_iff_toText? t s).mpr h)).1

end Utf8

namespace EncodedPath

/-- The second result is the first one in UTF-8: it is valid, and nothing is lost in it. -/
inductive Carries : Except PathError (Option Text) → Except PathError (Option Bytes) → Prop where
  | refused (e : PathError) : Carries (.error e) (.error e)
  | none : Carries (.ok none) (.ok none)
  | path (t : Text) (s : Bytes) (hvalid : Utf8.Encodes t.codePoints s)
      (hbytes : Utf8.ofText? t = some s) (htext : Utf8.toText? s = some t) :
      Carries (.ok (some t)) (.ok (some s))

theorem carries_encode (r : Except PathError (Option Text))
    (h : ∀ t, r = .ok (some t) → t.isWellFormed = true) : Carries r (encode r) := by
  match r, h with
  | .error e, _ => exact .refused e
  | .ok none, _ => exact .none
  | .ok (some t), h =>
    have ht := h t rfl
    have hbytes := Utf8.ofText?_of_isWellFormed t ht
    have hencodes := ((Utf8.ofText?_eq_some_iff t _).mp hbytes).2
    exact .path t (Utf8.ofText t) ⟨Text.isScalar_of_mem_codePoints t ht, hencodes⟩ hbytes
      ((Utf8.ofText?_iff_toText? t _).mp hbytes)

theorem normalize_of_toText? (sep : Separator) (ending : Ending) (s : Bytes) (t : Text)
    (h : Utf8.toText? s = some t) :
    EncodedPath.normalize sep ending s = ⟨encode (Path.normalize sep ending t), []⟩ := by
  unfold EncodedPath.normalize
  rw [h]

theorem join_of_toText? (base s : Bytes) (b t : Text) (hbase : Utf8.toText? base = some b)
    (h : Utf8.toText? s = some t) :
    EncodedPath.join base s = ⟨encode (Path.join b t), []⟩ := by
  unfold EncodedPath.join
  rw [hbase, h]

/-- **Paths in UTF-8.** What becomes of valid bytes is what becomes of their text, in UTF-8. Bytes
that are not valid have no result. -/
theorem operations_carry :
    (∀ s t, Utf8.toText? s = some t → ∀ sep ending,
        Carries (Path.normalize sep ending t) (EncodedPath.normalize sep ending s).value) ∧
      (∀ base s b t, Utf8.toText? base = some b → Utf8.toText? s = some t →
        Carries (Path.join b t) (EncodedPath.join base s).value) ∧
      (∀ s, Utf8.toText? s = none → ∀ sep ending,
        (EncodedPath.normalize sep ending s).value = .ok none) ∧
      ∀ base s, Utf8.toText? base = none ∨ Utf8.toText? s = none →
        (EncodedPath.join base s).value = .ok none := by
  refine ⟨?_, ?_, ?_, ?_⟩
  · intro s t h sep ending
    rw [normalize_of_toText? sep ending s t h]
    apply carries_encode
    intro r hr
    exact Path.isWellFormed_normalize sep ending t r hr (Utf8.isWellFormed_of_toText? s t h)
  · intro base s b t hbase h
    rw [join_of_toText? base s b t hbase h]
    apply carries_encode
    intro r hr
    exact Path.isWellFormed_of_join b t r hr (Utf8.isWellFormed_of_toText? base b hbase)
      (Utf8.isWellFormed_of_toText? s t h)
  · intro s h sep ending
    unfold EncodedPath.normalize
    rw [h]
    rfl
  · intro base s h
    unfold EncodedPath.join
    split
    · rfl
    · next b hb =>
      have hs : Utf8.toText? s = none := h.resolve_left (by simp [hb])
      rw [hs]
      rfl

theorem operations_carry_pair :
    Utf8.toText? [0x61, 0x2F, 0x2E, 0x2E, 0x2F, 0xF0, 0x9F, 0x98, 0x80, 0x2F, 0x2E] =
        some (Text.ofString "a/../😀/.") ∧
      Utf8.toText? [0xC3, 0xA4] = some (Text.ofString "ä") ∧ Utf8.toText? [0xFF] = none ∧
      Carries (Path.normalize .slash .kept (Text.ofString "a/../😀/."))
        (EncodedPath.normalize .slash .kept
          [0x61, 0x2F, 0x2E, 0x2E, 0x2F, 0xF0, 0x9F, 0x98, 0x80, 0x2F, 0x2E]).value ∧
      Carries (Path.join (Text.ofString "ä") (Text.ofString "a/../😀/."))
        (EncodedPath.join [0xC3, 0xA4]
          [0x61, 0x2F, 0x2E, 0x2E, 0x2F, 0xF0, 0x9F, 0x98, 0x80, 0x2F, 0x2E]).value ∧
      (EncodedPath.normalize .slash .kept [0xFF]).value = .ok none ∧
      (EncodedPath.join [0xC3, 0xA4] [0xFF]).value = .ok none := by
  have hpath : Utf8.toText? [0x61, 0x2F, 0x2E, 0x2E, 0x2F, 0xF0, 0x9F, 0x98, 0x80, 0x2F, 0x2E] =
      some (Text.ofString "a/../😀/.") := by decide +kernel
  have hbase : Utf8.toText? [0xC3, 0xA4] = some (Text.ofString "ä") := by decide +kernel
  have hinvalid : Utf8.toText? [0xFF] = none := by decide
  obtain ⟨hnormalize, hjoin, hnone, hnone'⟩ := operations_carry
  exact ⟨hpath, hbase, hinvalid, hnormalize _ _ hpath .slash .kept, hjoin _ _ _ _ hbase hpath,
    hnone _ hinvalid .slash .kept, hnone' _ _ (Or.inr hinvalid)⟩

end EncodedPath

end LexicalPath
