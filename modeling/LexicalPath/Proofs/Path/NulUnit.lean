import LexicalPath.Proofs.Normal.Fixpoint
import LexicalPath.Proofs.Path.Extension
import LexicalPath.Proofs.Path.Parts

/-!
# NUL in the parts of a path

A normal form and a name are refused with the whole path, a prefix and a directory for what they
hold themselves. No NUL gets out with any of these. A full directory is checked only if it is all
prefix, and an extension never, so these two can hold a NUL.
-/

namespace LexicalPath.Path

open Text

/-! ## Parts and what is checked for them -/

/-- A text that a path can be asked for. -/
inductive Part where
  | normal (sep : Separator) (ending : Ending)
  | anchor
  | directory (ending : Ending)
  | fullDirectory (ending : Ending)
  | name
  | baseName
  | withoutExtension
  | extension

namespace Part

def cut (path : Text) : Part → Except PathError (Option Text)
  | normal sep ending => Path.normalize sep ending path
  | anchor => Path.anchor path
  | directory ending => Path.directory ending path
  | fullDirectory ending => Path.fullDirectory ending path
  | name => (Path.name path).map some
  | baseName => (Path.baseName path).map some
  | withoutExtension => (Path.withoutExtension path).map some
  | extension => .ok (some (Path.extension path))

def IsRefused (path : Text) (part : Part) : Prop := part.cut path = .error .nulUnit

/-- The text that may not hold a NUL if the part is to be given out, where there is one. -/
def checked? (path : Text) : Part → Option Text
  | normal .. => some path
  | anchor => (Prefix.length? path).map path.take
  | directory ending =>
    (Prefix.length? path).map fun start =>
      (path.take (path.lastSeparatorIdx?.elim 0 (directoryEnd ending))).drop start
  | fullDirectory .kept => (Prefix.length? path).filter (path.length ≤ ·) |>.map fun _ => path
  | fullDirectory .dropped => none
  | name => some path
  | baseName => some path
  | withoutExtension => some path
  | extension => none

end Part

/-- A text with a NUL is given out. -/
def LetsNulOut (r : Except PathError (Option Text)) : Prop :=
  ∃ t, r = .ok (some t) ∧ CodeUnit.nul ∈ t

/-- The answer is given exactly if `t` holds no NUL, and then it holds none itself. -/
structure Guarded (t : Text) (r : Except PathError (Option Text)) : Prop where
  refused : CodeUnit.nul ∈ t → r = .error .nulUnit
  passed : CodeUnit.nul ∉ t → ∃ o, r = .ok o ∧ ∀ part ∈ o, CodeUnit.nul ∉ part

section

variable {t : Text} {r : Except PathError (Option Text)}

theorem Guarded.refused_iff (h : Guarded t r) : r = .error .nulUnit ↔ CodeUnit.nul ∈ t := by
  refine ⟨fun hr => ?_, h.refused⟩
  by_contra hnul
  obtain ⟨o, ho, -⟩ := h.passed hnul
  cases hr.symm.trans ho

theorem Guarded.not_letsNulOut (h : Guarded t r) : ¬ LetsNulOut r := by
  rintro ⟨part, hpart, hmem⟩
  by_cases hnul : CodeUnit.nul ∈ t
  · cases (h.refused hnul).symm.trans hpart
  · obtain ⟨o, ho, hno⟩ := h.passed hnul
    obtain rfl := Except.ok.inj (ho.symm.trans hpart)
    exact hno part rfl hmem

end

theorem guarded_clean (t : Text) : Guarded t (some <$> clean t) where
  refused h := by rw [clean_of_nul t h]; rfl
  passed h := ⟨some t, by rw [clean_of_not_nul t h]; rfl, by simpa using h⟩

/-! ## One part after the other -/

section

variable (path : Text)

theorem guarded_normalize (sep : Separator) (ending : Ending) :
    Guarded path (normalize sep ending path) where
  refused h := by rw [normalize_eq_segments, if_pos h]
  passed h := by
    have hok := normalize_of_not_nul sep ending path h
    refine ⟨_, hok, fun r hr => nul_not_mem_normal sep ending path r ?_⟩
    rw [hok, Option.mem_def.mp hr]

theorem name_of_not_nul (h : CodeUnit.nul ∉ path) :
    ∃ nm, name path = .ok nm ∧ CodeUnit.nul ∉ nm := by
  unfold name
  rw [clean_of_not_nul path h, ok_bind]
  cases path.lastSeparatorIdx? with
  | none => exact ⟨path, rfl, h⟩
  | some i => exact ⟨_, rfl, fun hmem => h (List.mem_of_mem_drop hmem)⟩

theorem withoutExtension_of_not_nul (h : CodeUnit.nul ∉ path) :
    ∃ stem, withoutExtension path = .ok stem ∧ CodeUnit.nul ∉ stem := by
  unfold withoutExtension
  rw [clean_of_not_nul path h, ok_bind]
  cases extensionIdx? path with
  | none => exact ⟨path, rfl, h⟩
  | some i => exact ⟨_, rfl, fun hmem => h (List.mem_of_mem_take hmem)⟩

theorem guarded_name : Guarded path ((name path).map some) where
  refused h := by simp [name, clean_of_nul path h]
  passed h := by
    obtain ⟨nm, hnm, hnul⟩ := name_of_not_nul path h
    exact ⟨some nm, by rw [hnm, map_ok], by simpa using hnul⟩

theorem guarded_withoutExtension : Guarded path ((withoutExtension path).map some) where
  refused h := by simp [withoutExtension, clean_of_nul path h]
  passed h := by
    obtain ⟨stem, hstem, hnul⟩ := withoutExtension_of_not_nul path h
    exact ⟨some stem, by rw [hstem, map_ok], by simpa using hnul⟩

theorem guarded_baseName : Guarded path ((baseName path).map some) where
  refused h := by simp [baseName, name, clean_of_nul path h]
  passed h := by
    obtain ⟨nm, hnm, hnul⟩ := name_of_not_nul path h
    obtain ⟨stem, hstem, hnul⟩ := withoutExtension_of_not_nul nm hnul
    exact ⟨some stem, by simp [baseName, hnm, hstem], by simpa using hnul⟩

variable (start : Nat) (hstart : Prefix.length? path = some start)

include hstart

theorem guarded_anchor : Guarded (path.take start) (anchor path) := by
  unfold anchor
  simp only [hstart]
  split
  · next hvirtual =>
    rw [List.take_of_length_le (Nat.le_of_lt hvirtual)]
    have hguard := guarded_clean (path ++ [Separator.slash.unit])
    have hmem : CodeUnit.nul ∈ path ++ [Separator.slash.unit] ↔ CodeUnit.nul ∈ path := by
      simp [show CodeUnit.nul ≠ Separator.slash.unit by decide]
    exact ⟨fun h => hguard.refused (hmem.mpr h), fun h => hguard.passed (mt hmem.mp h)⟩
  · exact guarded_clean _

theorem guarded_directory (ending : Ending) :
    Guarded ((path.take (path.lastSeparatorIdx?.elim 0 (directoryEnd ending))).drop start)
      (directory ending path) := by
  unfold directory
  simp only [hstart]
  have hnone : Guarded [] (.ok (some [])) := ⟨by simp, fun _ => ⟨_, rfl, by simp⟩⟩
  cases path.lastSeparatorIdx? with
  | none => simpa using hnone
  | some i =>
    dsimp only [Option.elim_some]
    split
    · next hshort =>
      rw [List.drop_eq_nil_of_le (by rw [List.length_take]; omega)]
      exact hnone
    · exact guarded_clean _

end

/-! ## Full directories -/

section

variable (dir : Text) (w : CodeUnit) (rest : Text) (hw : Separator.isUnit w = true)

include hw

theorem nul_mem_take_iff (m : Nat) (hlo : dir.length ≤ m) (hhi : m ≤ dir.length + 1) :
    CodeUnit.nul ∈ (dir ++ w :: rest).take m ↔ CodeUnit.nul ∈ dir := by
  have hne : CodeUnit.nul ≠ w := by
    rintro rfl
    exact absurd hw (by decide)
  rcases Nat.eq_or_lt_of_le hlo with rfl | hlt
  · rw [List.take_left]
  · obtain rfl : m = dir.length + 1 := by omega
    rw [show dir ++ w :: rest = (dir ++ [w]) ++ rest by simp, List.take_left' (by simp)]
    simp [hne]

theorem nul_mem_parts_iff (start stop : Nat) (hstart : start ≤ dir.length + 1)
    (hlo : dir.length ≤ stop) (hhi : stop ≤ dir.length + 1) :
    (CodeUnit.nul ∈ (dir ++ w :: rest).take start ∨
        CodeUnit.nul ∈ ((dir ++ w :: rest).take stop).drop start) ↔ CodeUnit.nul ∈ dir := by
  by_cases hle : start ≤ stop
  · have hfront : (dir ++ w :: rest).take start = ((dir ++ w :: rest).take stop).take start := by
      rw [List.take_take, Nat.min_eq_left hle]
    rw [hfront, ← List.mem_append, List.take_append_drop]
    exact nul_mem_take_iff dir w rest hw stop hlo hhi
  · -- Then the prefix ends with the last separator, which the directory has dropped.
    have hempty : ((dir ++ w :: rest).take stop).drop start = [] :=
      List.drop_eq_nil_of_le (by rw [List.length_take]; omega)
    rw [hempty, nul_mem_take_iff dir w rest hw start (by omega) hstart]
    simp

end

theorem letsNulOut_fullDirectory (path : Text) (ending : Ending) :
    LetsNulOut (fullDirectory ending path) ↔
      (Part.anchor.IsRefused path ∨ (Part.directory ending).IsRefused path) ∧
        ¬ (Part.fullDirectory ending).IsRefused path := by
  unfold Part.IsRefused
  simp only [Part.cut]
  cases hlength : Prefix.length? path with
  | none => simp [anchor, directory, fullDirectory, hlength, LetsNulOut]
  | some start =>
    have hanchor := guarded_anchor path start hlength
    have hdirectory := guarded_directory path start hlength ending
    rw [hanchor.refused_iff, hdirectory.refused_iff]
    by_cases hle : path.length ≤ start
    · have hempty : (path.take (path.lastSeparatorIdx?.elim 0 (directoryEnd ending))).drop start =
          [] := List.drop_eq_nil_of_le (by rw [List.length_take]; omega)
      rw [hempty, List.take_of_length_le hle]
      cases ending with
      | kept =>
        have hfull : fullDirectory .kept path = anchor path := by
          simp [fullDirectory, hlength, hle]
        rw [hfull, hanchor.refused_iff, List.take_of_length_le hle]
        simp [hanchor.not_letsNulOut]
      | dropped => simp [fullDirectory, hlength, hle, LetsNulOut]
    · rcases separatorFree_or_lastSplit path with hfree | ⟨dir, w, rest, hpath, hw, hrest⟩
      · have hlast := lastSeparatorIdx?_of_separatorFree path hfree
        simp [fullDirectory, hlength, hle, hlast, LetsNulOut]
      · obtain ⟨kind, hform⟩ := (Prefix.length?_eq_some_iff_form path start).mp hlength
        have hbound := prefix_le_directory dir w rest path _ hform hpath hw hrest
        have hlast : path.lastSeparatorIdx? = some dir.length := by
          rw [hpath, lastSeparatorIdx?_split dir w rest hw hrest]
        have hstop : dir.length ≤ directoryEnd ending dir.length ∧
            directoryEnd ending dir.length ≤ dir.length + 1 := by
          cases ending <;> simp [directoryEnd]
        have hfull : fullDirectory ending path =
            .ok (some (path.take (max 1 (directoryEnd ending dir.length)))) := by
          simp [fullDirectory, hlength, hle, hlast]
        rw [hfull, hlast, Option.elim_some, hpath,
          nul_mem_parts_iff dir w rest hw start _ hbound hstop.1 hstop.2]
        have hcut := nul_mem_take_iff dir w rest hw (max 1 (directoryEnd ending dir.length))
          (by omega) (by omega)
        simp [LetsNulOut, hcut]

/-! ## All parts -/

/-- The parts that are given out with a NUL. -/
def Part.Leaks (path : Text) : Part → Prop
  | fullDirectory ending =>
    (anchor.IsRefused path ∨ (directory ending).IsRefused path) ∧
      ¬ (fullDirectory ending).IsRefused path
  | extension => ∃ ext, EndsWithExtension path ext ∧ CodeUnit.nul ∈ ext
  | _ => False

theorem guarded_of_checked (path : Text) (part : Part) (t : Text)
    (h : part.checked? path = some t) : Guarded t (part.cut path) := by
  cases part with
  | normal sep ending =>
    obtain rfl := Option.some.inj h
    exact guarded_normalize path sep ending
  | anchor =>
    obtain ⟨start, hstart, rfl⟩ := Option.map_eq_some_iff.mp h
    exact guarded_anchor path start hstart
  | directory ending =>
    obtain ⟨start, hstart, rfl⟩ := Option.map_eq_some_iff.mp h
    exact guarded_directory path start hstart ending
  | fullDirectory ending =>
    cases ending with
    | kept =>
      obtain ⟨start, hstart, rfl⟩ := Option.map_eq_some_iff.mp h
      obtain ⟨hstart, hle⟩ := Option.filter_eq_some_iff.mp hstart
      have hle : path.length ≤ start := by simpa using hle
      have hfull : fullDirectory .kept path = anchor path := by
        simp [fullDirectory, hstart, hle]
      have hanchor := guarded_anchor path start hstart
      rwa [List.take_of_length_le hle, ← hfull] at hanchor
    | dropped => cases h
  | name =>
    obtain rfl := Option.some.inj h
    exact guarded_name path
  | baseName =>
    obtain rfl := Option.some.inj h
    exact guarded_baseName path
  | withoutExtension =>
    obtain rfl := Option.some.inj h
    exact guarded_withoutExtension path
  | extension => cases h

theorem ok_of_unchecked (path : Text) (part : Part) (h : part.checked? path = none) :
    ∃ o, part.cut path = .ok o := by
  cases part with
  | anchor =>
    have hlength : Prefix.length? path = none := Option.map_eq_none_iff.mp h
    exact ⟨none, by simp [Part.cut, anchor, hlength]⟩
  | directory ending =>
    have hlength : Prefix.length? path = none := Option.map_eq_none_iff.mp h
    exact ⟨none, by simp [Part.cut, directory, hlength]⟩
  | fullDirectory ending =>
    simp only [Part.cut, fullDirectory]
    cases hlength : Prefix.length? path with
    | none => exact ⟨none, rfl⟩
    | some start =>
      cases ending with
      | kept =>
        have hlt : ¬ path.length ≤ start := by simpa [Part.checked?, hlength] using h
        simp only [if_neg hlt]
        cases path.lastSeparatorIdx? <;> exact ⟨_, rfl⟩
      | dropped =>
        dsimp only
        split
        · exact ⟨_, rfl⟩
        · cases path.lastSeparatorIdx? <;> exact ⟨_, rfl⟩
  | extension => exact ⟨_, rfl⟩
  | _ => cases h

theorem isRefused_iff (path : Text) (part : Part) :
    part.IsRefused path ↔ ∃ t, part.checked? path = some t ∧ CodeUnit.nul ∈ t := by
  unfold Part.IsRefused
  cases hchecked : part.checked? path with
  | none =>
    obtain ⟨o, ho⟩ := ok_of_unchecked path part hchecked
    simp [ho]
  | some t =>
    rw [(guarded_of_checked path part t hchecked).refused_iff]
    simp

theorem letsNulOut_extension (path : Text) :
    LetsNulOut (.ok (some (extension path))) ↔
      ∃ ext, EndsWithExtension path ext ∧ CodeUnit.nul ∈ ext := by
  constructor
  · rintro ⟨ext, hext, hmem⟩
    obtain rfl : extension path = ext := Option.some.inj (Except.ok.inj hext)
    refine ⟨_, (endsWithExtension_iff path _).mpr ⟨fun hnone => ?_, rfl⟩, hmem⟩
    rw [extension, hnone] at hmem
    cases hmem
  · rintro ⟨ext, hext, hmem⟩
    exact ⟨ext, by rw [((endsWithExtension_iff path ext).mp hext).2], hmem⟩

/-- **Where a NUL gets out.** A part is refused exactly if the text that is checked for it holds a
NUL. No part is given out with one, except for a full directory whose prefix or directory would be
refused, and for an extension that holds it. -/
theorem nul_gets_out_iff (path : Text) (part : Part) :
    (part.IsRefused path ↔ ∃ t, part.checked? path = some t ∧ CodeUnit.nul ∈ t) ∧
      (LetsNulOut (part.cut path) ↔ part.Leaks path) := by
  refine ⟨isRefused_iff path part, ?_⟩
  cases part with
  | normal sep ending =>
    exact iff_of_false (guarded_normalize path sep ending).not_letsNulOut id
  | anchor =>
    refine iff_of_false ?_ id
    cases hlength : Prefix.length? path with
    | none => simp [Part.cut, anchor, hlength, LetsNulOut]
    | some start => exact (guarded_anchor path start hlength).not_letsNulOut
  | directory ending =>
    refine iff_of_false ?_ id
    cases hlength : Prefix.length? path with
    | none => simp [Part.cut, directory, hlength, LetsNulOut]
    | some start => exact (guarded_directory path start hlength ending).not_letsNulOut
  | fullDirectory ending => exact letsNulOut_fullDirectory path ending
  | name => exact iff_of_false (guarded_name path).not_letsNulOut id
  | baseName => exact iff_of_false (guarded_baseName path).not_letsNulOut id
  | withoutExtension => exact iff_of_false (guarded_withoutExtension path).not_letsNulOut id
  | extension => exact letsNulOut_extension path

/-- The full directory of a path gives out a NUL for which its directory is refused, and an
extension gives one out as well. -/
theorem nul_gets_out_unchecked :
    fullDirectory .kept [0x61, CodeUnit.nul, CodeUnit.slash, 0x62] =
        .ok (some [0x61, CodeUnit.nul, CodeUnit.slash]) ∧
      directory .kept [0x61, CodeUnit.nul, CodeUnit.slash, 0x62] = .error .nulUnit ∧
      extension [0x61, CodeUnit.dot, CodeUnit.nul] = [CodeUnit.nul] :=
  ⟨rfl, rfl, rfl⟩

end LexicalPath.Path
