import LexicalPath.Path.Parts
import LexicalPath.Proofs.Failure
import LexicalPath.Proofs.Prefix.Grammar

/-!
# Parts that make up a path

Every part is cut out by indices of its own. The last separator parts a path into its directory and
its name, and no prefix reaches beyond that separator, so the parts meet.
-/

namespace LexicalPath.Path

open Text

/-! ## The prefix -/

theorem anchor_eq (path : Text) (p : Prefix) (h : Prefix.Form path p) (hnul : CodeUnit.nul ∉ path) :
    anchor path = .ok (some
      (if path.length < p.length then path ++ [Separator.slash.unit] else path.take p.length)) := by
  have hlen : Prefix.length? path = some p.length := Prefix.length?_of_form path p h
  unfold anchor
  simp only [hlen]
  rw [clean_of_not_nul]
  · rfl
  · split
    · simpa using ⟨hnul, by decide⟩
    · exact fun hmem => hnul (List.mem_of_mem_take hmem)

section

variable (dir : Text) (w : CodeUnit) (rest : Text)

theorem length_le_of_endsWithSeparator (front back : Text) (h : front ++ back = dir ++ w :: rest)
    (hrest : SeparatorFree rest) (hfront : front.endsWithSeparator = true) :
    front.length ≤ dir.length + 1 := by
  rw [← List.singleton_append, ← List.append_assoc] at h
  rcases List.append_eq_append_iff.mp h with ⟨more, hmore, -⟩ | ⟨more, rfl, rfl⟩
  · have hlength := congrArg List.length hmore
    rw [List.length_append, List.length_append, List.length_singleton] at hlength
    omega
  · cases hlast : more.getLast? with
    | none => simp [List.getLast?_eq_none_iff.mp hlast]
    | some u =>
      have hu : Separator.isUnit u = false :=
        hrest u (List.mem_append_left back (List.mem_of_getLast? hlast))
      rw [endsWithSeparator, List.getLast?_append, hlast, Option.some_or, Option.any_some, hu]
        at hfront
      cases hfront

theorem length_le_of_separatorFree (front back : Text) (h : front ++ back = dir ++ w :: rest)
    (hw : Separator.isUnit w = true) (hfront : SeparatorFree front) :
    front.length ≤ dir.length := by
  rcases List.append_eq_append_iff.mp h with ⟨more, rfl, -⟩ | ⟨more, rfl, hmore⟩
  · simp
  · cases more with
    | nil => simp
    | cons u more =>
      obtain ⟨rfl, -⟩ := List.cons.inj hmore
      rw [hfront w (by simp)] at hw
      cases hw

theorem prefix_le_directory (path : Text) (p : Prefix) (h : Prefix.Form path p)
    (hpath : path = dir ++ w :: rest) (hw : Separator.isUnit w = true)
    (hrest : SeparatorFree rest) : p.length ≤ dir.length + 1 := by
  have hle : p.length ≤ path.length := by
    rcases Prefix.form_length path p h with hle | ⟨-, -, hfree⟩
    · exact hle
    · rw [hfree w (by simp [hpath])] at hw
      cases hw
  have hlength : (path.take p.length).length = p.length := List.length_take_of_le hle
  have hsplit := (List.take_append_drop p.length path).trans hpath
  rcases Prefix.form_cases path p h hle with ⟨-, htake, -⟩ | ⟨-, ⟨l, htake, hl⟩, -⟩ | ⟨-, hends⟩
  · rw [htake, List.length_nil] at hlength
    omega
  · have hfree : SeparatorFree (path.take p.length) := by
      simp [htake, SeparatorFree, (CodeUnit.isLetter_ne_unit l hl).2.2, Separator.isUnit_colon]
    have hdrive := length_le_of_separatorFree dir w rest _ _ hsplit hw hfree
    omega
  · have hclosed := length_le_of_endsWithSeparator dir w rest _ _ hsplit hrest hends
    omega

/-! ## Directories and names -/

theorem directories_split (path : Text) (p : Prefix) (h : Prefix.Form path p)
    (hnul : CodeUnit.nul ∉ path) (hpath : path = dir ++ w :: rest)
    (hw : Separator.isUnit w = true) (hrest : SeparatorFree rest) :
    anchor path = .ok (some ((dir ++ [w]).take p.length)) ∧
      directory .kept path = .ok (some ((dir ++ [w]).drop p.length)) ∧
      fullDirectory .kept path = .ok (some (dir ++ [w])) := by
  have hbound : p.length ≤ dir.length + 1 := prefix_le_directory dir w rest path p h hpath hw hrest
  have hlast : path.lastSeparatorIdx? = some dir.length := by
    rw [hpath, lastSeparatorIdx?_split dir w rest hw hrest]
  have hfull : path = (dir ++ [w]) ++ rest := by simp [hpath]
  have hlength : path.length = dir.length + 1 + rest.length := by
    rw [hfull, List.length_append, List.length_append, List.length_singleton]
  have htake : path.take p.length = (dir ++ [w]).take p.length := by
    rw [hfull, List.take_append_of_le_length (by simpa using hbound)]
  have hfront : path.take (dir.length + 1) = dir ++ [w] := by
    rw [hfull]
    exact List.take_left' (by simp)
  have hlen : Prefix.length? path = some p.length := Prefix.length?_of_form path p h
  have hanchor : anchor path = .ok (some ((dir ++ [w]).take p.length)) := by
    rw [anchor_eq path p h hnul, if_neg (by omega), htake]
  refine ⟨hanchor, ?_, ?_⟩
  · have hclean : clean ((dir ++ [w]).drop p.length) = .ok ((dir ++ [w]).drop p.length) := by
      refine clean_of_not_nul _ fun hmem => hnul ?_
      rw [hfull]
      exact List.mem_append_left rest (List.mem_of_mem_drop hmem)
    unfold directory
    simp only [hlen, hlast, directoryEnd, hfront, hclean]
    split
    · have hempty : (dir ++ [w]).drop p.length = [] := by
        rw [List.drop_eq_nil_iff, List.length_append, List.length_singleton]
        omega
      rw [hempty]
    · rfl
  · unfold fullDirectory
    simp only [hlen, hlast, directoryEnd, Nat.max_eq_right (Nat.le_add_left 1 dir.length), hfront,
      hanchor]
    split
    · rw [List.take_of_length_le (by rw [List.length_append, List.length_singleton]; omega)]
    · rfl

theorem name_split (path : Text) (hnul : CodeUnit.nul ∉ path) (hpath : path = dir ++ w :: rest)
    (hw : Separator.isUnit w = true) (hrest : SeparatorFree rest) : name path = .ok rest := by
  have hlast : path.lastSeparatorIdx? = some dir.length := by
    rw [hpath, lastSeparatorIdx?_split dir w rest hw hrest]
  have hdrop : path.drop (dir.length + 1) = rest := by simp [hpath]
  simp [name, clean_of_not_nul path hnul, hlast, hdrop]

end

theorem directories_of_separatorFree (path : Text) (p : Prefix) (h : Prefix.Form path p)
    (hnul : CodeUnit.nul ∉ path) (hfree : SeparatorFree path) :
    ∃ pre, anchor path = .ok (some pre) ∧ directory .kept path = .ok (some []) ∧
      fullDirectory .kept path = .ok (some pre) ∧
      (pre = [] ↔ p.isVirtual path.length = false ∧ p.kind ≠ .driveRelative) := by
  have hlast : path.lastSeparatorIdx? = none := lastSeparatorIdx?_of_separatorFree path hfree
  have hlen : Prefix.length? path = some p.length := Prefix.length?_of_form path p h
  have hdirectory : directory .kept path = .ok (some []) := by
    unfold directory
    simp only [hlen, hlast]
  have hanchor := anchor_eq path p h hnul
  by_cases hvirtual : path.length < p.length
  · rw [if_pos hvirtual] at hanchor
    refine ⟨path ++ [Separator.slash.unit], hanchor, hdirectory, ?_, ?_⟩
    · unfold fullDirectory
      simp only [hlen, if_pos (Nat.le_of_lt hvirtual), hanchor]
    · simp [Prefix.isVirtual, hvirtual]
  · rw [if_neg hvirtual] at hanchor
    refine ⟨path.take p.length, hanchor, hdirectory, ?_, ?_⟩
    · unfold fullDirectory
      simp only [hlen, hlast, hanchor]
      split <;> rfl
    · have hreal : p.isVirtual path.length = false := by simpa [Prefix.isVirtual] using hvirtual
      rcases Prefix.form_cases path p h (by omega) with
        ⟨hkind, htake, -⟩ | ⟨hkind, ⟨l, htake, -⟩, -⟩ | ⟨-, hends⟩
      · simp [htake, hkind, hreal]
      · simp [htake, hkind]
      · rw [endsWithSeparator_of_separatorFree _ fun u hu => hfree u (List.mem_of_mem_take hu)]
          at hends
        cases hends

theorem name_of_separatorFree (path : Text) (hnul : CodeUnit.nul ∉ path)
    (hfree : SeparatorFree path) : name path = .ok path := by
  have hlast : path.lastSeparatorIdx? = none := lastSeparatorIdx?_of_separatorFree path hfree
  simp [name, clean_of_not_nul path hnul, hlast]

/-! ## Extensions -/

theorem extensionIdx?_of_separatorFree (t : Text) (hfree : SeparatorFree t) :
    extensionIdx? t = t.lastIndexOf? CodeUnit.dot := by
  unfold extensionIdx?
  rw [lastSeparatorIdx?_of_separatorFree t hfree]
  cases t.lastIndexOf? CodeUnit.dot <;> rfl

theorem extensionIdx?_split (dir : Text) (w : CodeUnit) (rest : Text)
    (hw : Separator.isUnit w = true) (hrest : SeparatorFree rest) :
    extensionIdx? (dir ++ w :: rest) =
      (rest.lastIndexOf? CodeUnit.dot).map ((dir ++ [w]).length + ·) := by
  have hdot : lastIndexOf? (dir ++ w :: rest) CodeUnit.dot =
      ((rest.lastIndexOf? CodeUnit.dot).map ((dir ++ [w]).length + ·)).or
        (dir.lastIndexOf? CodeUnit.dot) := by
    have hw' : Search.last? (· == CodeUnit.dot) [w] = none :=
      (Search.last?_eq_none_iff _ [w]).mpr (by simpa using (Separator.isUnit_ne w hw).2.2.1)
    unfold lastIndexOf?
    rw [← List.singleton_append, ← List.append_assoc, Search.last?_append, Search.last?_append,
      hw', Option.map_none, Option.none_or]
  unfold extensionIdx?
  rw [lastSeparatorIdx?_split dir w rest hw hrest, hdot]
  cases rest.lastIndexOf? CodeUnit.dot with
  | some i =>
    have hlt : ¬ (dir ++ [w]).length + i < dir.length := by
      rw [List.length_append]
      omega
    exact if_neg hlt
  | none =>
    cases hdir : dir.lastIndexOf? CodeUnit.dot with
    | none => rfl
    | some j => exact if_pos (Search.last?_lt _ dir j hdir)

theorem baseName_extension (path front nm : Text) (hnul : CodeUnit.nul ∉ path)
    (hpath : path = front ++ nm) (hname : name path = .ok nm) (hfree : SeparatorFree nm)
    (hidx : extensionIdx? path = (nm.lastIndexOf? CodeUnit.dot).map (front.length + ·)) :
    ∃ base, baseName path = .ok base ∧
      (extensionIdx? path ≠ none → nm = base ++ CodeUnit.dot :: extension path) ∧
      (extensionIdx? path = none → nm = base ∧ extension path = []) := by
  have hclean : clean nm = .ok nm :=
    clean_of_not_nul nm fun hmem => hnul (hpath ▸ List.mem_append_right front hmem)
  rcases Search.last?_cases (· == CodeUnit.dot) nm with
    ⟨hnone, -⟩ | ⟨base, d, ext, hnm, hd, -, hsome⟩
  · have hnm : nm.lastIndexOf? CodeUnit.dot = none := hnone
    have hnone : extensionIdx? path = none := by rw [hidx, hnm, Option.map_none]
    refine ⟨nm, ?_, fun h => absurd hnone h, fun _ => ⟨rfl, by rw [extension, hnone]⟩⟩
    simp [baseName, withoutExtension, hname, hclean, extensionIdx?_of_separatorFree nm hfree, hnm]
  · have hlast : nm.lastIndexOf? CodeUnit.dot = some base.length := hsome
    have hsome : extensionIdx? path = some (front.length + base.length) := by
      rw [hidx, hlast, Option.map_some]
    obtain rfl : d = CodeUnit.dot := by simpa using hd
    have hext : extension path = ext := by
      have hdot : path = (front ++ base ++ [CodeUnit.dot]) ++ ext := by simp [hpath, hnm]
      rw [extension, hsome, hdot]
      exact List.drop_left' (by simp [Nat.add_assoc])
    have htake : nm.take base.length = base := by rw [hnm, List.take_left]
    refine ⟨base, ?_, fun _ => by rw [hext, hnm], fun h => ?_⟩
    · simp [baseName, withoutExtension, hname, hclean, extensionIdx?_of_separatorFree nm hfree,
        hlast, htake]
    · rw [hsome] at h
      cases h

/-- **The parts make up the path.** Prefix and directory together are the full directory, and the
name goes behind it, except that a virtual prefix ends the path and that a path on a drive without
any separator counts its drive twice. The base name and the extension make up the name with the dot
between them, or the base name is all of it. -/
theorem parts_make_up_path (path : Text) (p : Prefix) (hnul : CodeUnit.nul ∉ path)
    (hp : Prefix.parse? path = some p) :
    ∃ pre dir full nm base,
      anchor path = .ok (some pre) ∧ directory .kept path = .ok (some dir) ∧
        fullDirectory .kept path = .ok (some full) ∧ name path = .ok nm ∧
        baseName path = .ok base ∧
        full = pre ++ dir ∧
        (full ++ nm = path ↔ p.isVirtual path.length = false ∧
          ¬ (p.kind = .driveRelative ∧ SeparatorFree path)) ∧
        (extensionIdx? path ≠ none → nm = base ++ CodeUnit.dot :: extension path) ∧
        (extensionIdx? path = none → nm = base ∧ extension path = []) := by
  have hform := (Prefix.parse?_eq_some_iff_form path p).mp hp
  rcases separatorFree_or_lastSplit path with hfree | ⟨dir, w, rest, hpath, hw, hrest⟩
  · obtain ⟨pre, hanchor, hdirectory, hfull, hpre⟩ :=
      directories_of_separatorFree path p hform hnul hfree
    have hname := name_of_separatorFree path hnul hfree
    obtain ⟨base, hbase, hdot, hnone⟩ := baseName_extension path [] path hnul rfl hname hfree
      (by simp [extensionIdx?_of_separatorFree path hfree])
    refine ⟨pre, [], pre, path, base, hanchor, hdirectory, hfull, hname, hbase,
      (List.append_nil pre).symm, ?_, hdot, hnone⟩
    rw [List.append_left_eq_self, hpre]
    simp [hfree]
  · obtain ⟨hanchor, hdirectory, hfull⟩ :=
      directories_split dir w rest path p hform hnul hpath hw hrest
    have hname := name_split dir w rest path hnul hpath hw hrest
    have hjoin : path = (dir ++ [w]) ++ rest := by simp [hpath]
    obtain ⟨base, hbase, hdot, hnone⟩ :=
      baseName_extension path (dir ++ [w]) rest hnul hjoin hname hrest
        (by rw [hpath, extensionIdx?_split dir w rest hw hrest])
    refine ⟨_, _, _, rest, base, hanchor, hdirectory, hfull, hname, hbase,
      (List.take_append_drop _ _).symm, iff_of_true hjoin.symm ?_, hdot, hnone⟩
    have hseparator : ¬ SeparatorFree path := fun hfree => by
      rw [hfree w (by simp [hpath])] at hw
      cases hw
    refine ⟨?_, fun h => hseparator h.2⟩
    rcases Prefix.form_length path p hform with hle | ⟨-, -, hfree⟩
    · simpa [Prefix.isVirtual] using hle
    · exact absurd hfree hseparator

theorem parts_of_drive_file :
    let path : Text := [0x43, CodeUnit.colon, 0x61, CodeUnit.slash, 0x62, CodeUnit.dot, 0x63]
    CodeUnit.nul ∉ path ∧ Prefix.parse? path = some ⟨.driveRelative, 2⟩ ∧
      anchor path = .ok (some [0x43, CodeUnit.colon]) ∧
      directory .kept path = .ok (some [0x61, CodeUnit.slash]) ∧
      name path = .ok [0x62, CodeUnit.dot, 0x63] ∧ baseName path = .ok [0x62] ∧
      extension path = [0x63] ∧
      ∃ full, fullDirectory .kept path = .ok (some full) ∧
        full = [0x43, CodeUnit.colon] ++ [0x61, CodeUnit.slash] ∧
        full ++ [0x62, CodeUnit.dot, 0x63] = path ∧
        [0x62, CodeUnit.dot, 0x63] = [0x62] ++ CodeUnit.dot :: extension path := by
  intro path
  have hnul : CodeUnit.nul ∉ path := by decide
  have hparse : Prefix.parse? path = some ⟨.driveRelative, 2⟩ := by decide
  have hpre : anchor path = .ok (some [0x43, CodeUnit.colon]) := rfl
  have hdir : directory .kept path = .ok (some [0x61, CodeUnit.slash]) := rfl
  have hname : name path = .ok [0x62, CodeUnit.dot, 0x63] := rfl
  have hbase : baseName path = .ok [0x62] := rfl
  obtain ⟨pre, dir, full, nm, base, hpre', hdir', hfull, hname', hbase', hjoin, hwhole, hdot, -⟩ :=
    parts_make_up_path path ⟨.driveRelative, 2⟩ hnul hparse
  obtain rfl : [0x43, CodeUnit.colon] = pre := by simpa [hpre] using hpre'
  obtain rfl : [0x61, CodeUnit.slash] = dir := by simpa [hdir] using hdir'
  obtain rfl : [0x62, CodeUnit.dot, 0x63] = nm := by simpa [hname] using hname'
  obtain rfl : [0x62] = base := by simpa [hbase] using hbase'
  refine ⟨hnul, hparse, hpre, hdir, hname, hbase, rfl, full, hfull, hjoin,
    hwhole.mpr ⟨by decide, fun h => ?_⟩, hdot (by decide)⟩
  exact absurd (h.2 CodeUnit.slash (by decide)) (by decide)

end LexicalPath.Path
