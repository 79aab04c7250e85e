import Secretov.Lib.Pattern
import Secretov.SecretPaths

/-! The paths of cloud secrets, as the design states them: by regular expressions. -/

namespace Secretov

open Pattern

def nameByte (extra : Bytes) (c : UInt8) : Prop := isDigit c ∨ isLower c ∨ isUpper c ∨ c ∈ extra

/-- `[A-Za-z0-9/_+=.@-]{1,512}`. -/
def awsNamePattern : List (Piece UInt8) := [⟨nameByte (text "/_+=.@-"), 1, 512⟩]

/-- `[A-Za-z0-9_-]{1,255}`. -/
def gcpIdPattern : List (Piece UInt8) := [⟨nameByte (text "_-"), 1, 255⟩]

/-- `[a-z][a-z0-9-]{4,28}[a-z0-9]`. -/
def gcpProjectPattern : List (Piece UInt8) :=
  [⟨fun c => isLower c, 1, 1⟩, ⟨fun c => isLower c ∨ isDigit c ∨ c = '-'.toUInt8, 4, 28⟩,
    ⟨fun c => isLower c ∨ isDigit c, 1, 1⟩]

/-- `arn:aws:secretsmanager:<region>:[0-9]{12}:secret:[A-Za-z0-9/_+=.@-]{1,512}`. -/
def arnPattern (region : Bytes) : List (Piece UInt8) :=
  literal (text "arn:aws:secretsmanager:" ++ region ++ text ":") ++
    ([⟨fun c => isDigit c, 12, 12⟩] ++ (literal (text ":secret:") ++ awsNamePattern))

/-- `projects/<project>/secrets/[A-Za-z0-9_-]{1,255}`. -/
def resourcePattern (project : Bytes) : List (Piece UInt8) :=
  literal (text "projects/" ++ project ++ text "/secrets/") ++ gcpIdPattern

theorem name_iff_matches {extra : Bytes} {max : Nat} {s : Bytes} :
    Name extra max s ↔ Matches [⟨nameByte extra, 1, max⟩] s := by
  have hne : s ≠ [] ↔ 1 ≤ s.length := by
    rw [← List.length_pos_iff]
    rfl
  rw [Name, matches_singleton, hne]
  constructor
  · exact fun h => ⟨h.2.2, h.1, h.2.1⟩
  · exact fun h => ⟨h.2.1, h.2.2, h.1⟩

theorem arn_iff_matches {region s : Bytes} :
    Matches (arnPattern region) s ↔ ∃ account name, s = arn region account name ∧ AwsAccount account ∧
      AwsSecretName name := by
  rw [arnPattern, matches_literal_append]
  constructor
  · rintro ⟨back, rfl, hback⟩
    obtain ⟨account, rest, rfl, haccount, hrest⟩ := matches_append.mp hback
    obtain ⟨name, rfl, hname⟩ := matches_literal_append.mp hrest
    obtain ⟨hdigits, hleast, hmost⟩ := matches_singleton.mp haccount
    exact ⟨account, name, by simp [arn], ⟨Nat.le_antisymm hmost hleast, hdigits⟩, name_iff_matches.mpr hname⟩
  · rintro ⟨account, name, rfl, ⟨hlength, hdigits⟩, hname⟩
    refine ⟨account ++ (text ":secret:" ++ name), by simp [arn], matches_append.mpr ⟨account, _, rfl, ?_, ?_⟩⟩
    · exact matches_singleton.mpr ⟨hdigits, Nat.le_of_eq hlength.symm, Nat.le_of_eq hlength⟩
    · exact matches_literal_append.mpr ⟨name, rfl, name_iff_matches.mp hname⟩

theorem resourceName_iff_matches {project s : Bytes} :
    Matches (resourcePattern project) s ↔ ∃ id, s = resourceName project id ∧ GcpSecretId id := by
  rw [resourcePattern, matches_literal_append]
  simp only [resourceName, List.append_assoc]
  exact exists_congr fun id => and_congr_right fun _ => name_iff_matches.symm

theorem gcpProject_iff_matches {s : Bytes} : GcpProject s ↔ Matches gcpProjectPattern s := by
  constructor
  · rintro ⟨hleast, hmost, hfirst, hlast, hall⟩
    cases s with
    | nil => simp at hleast
    | cons first rest =>
      have hrest : rest ≠ [] := by
        rintro rfl
        simp at hleast
      obtain ⟨middle, last, rfl⟩ : ∃ middle last, rest = middle ++ [last] :=
        ⟨rest.dropLast, rest.getLast hrest, (List.dropLast_append_getLast hrest).symm⟩
      simp only [List.length_cons, List.length_append, List.length_nil] at hleast hmost
      have hlower : isLower first = true := hfirst first (by simp)
      have hend : isLower last = true ∨ isDigit last = true := hlast last (by
        rw [← List.cons_append, List.getLast?_append, List.getLast?_singleton]
        rfl)
      refine ⟨[first], middle ++ [last], rfl, by simpa using hlower, by simp, by simp, middle, [last], rfl,
        fun c hc => hall c (by simp [hc]), ?_, ?_, matches_singleton.mpr ⟨by simpa using hend, by simp, by simp⟩⟩
      · show 4 ≤ middle.length
        omega
      · show middle.length ≤ 28
        omega
  · rintro ⟨front, rest, rfl, hfirst, hone, hone', middle, back, rfl, hmiddle, hleast, hmost, hback⟩
    obtain ⟨hend, hlone, hlone'⟩ := matches_singleton.mp hback
    obtain ⟨first, rfl⟩ := List.length_eq_one_iff.mp (Nat.le_antisymm hone' hone)
    obtain ⟨last, rfl⟩ := List.length_eq_one_iff.mp (Nat.le_antisymm hlone' hlone)
    have hlower : isLower first = true := hfirst first (by simp)
    have hlast : isLower last = true ∨ isDigit last = true := hend last (by simp)
    have hleast : 4 ≤ middle.length := hleast
    have hmost : middle.length ≤ 28 := hmost
    refine ⟨?_, ?_, by simpa using hlower, ?_, ?_⟩
    · simp only [List.length_append, List.length_singleton]
      omega
    · simp only [List.length_append, List.length_singleton]
      omega
    · intro c hc
      rw [← List.append_assoc, List.getLast?_append, List.getLast?_singleton] at hc
      obtain rfl : last = c := Option.some.inj hc
      exact hlast
    · intro c hc
      rcases List.mem_append.mp hc with hc | hc
      · exact Or.inl (hfirst c hc)
      rcases List.mem_append.mp hc with hc | hc
      · exact hmiddle c hc
      · exact (hend c hc).imp_right Or.inl

theorem awsResolves_iff_matches {envLocation secretPath location : Bytes} :
    AwsResolves envLocation secretPath location ↔ Matches awsNamePattern secretPath ∧ location = envLocation ∨
      location ∈ kRegions ∧ Matches (arnPattern location) secretPath := by
  rw [AwsResolves, arn_iff_matches]
  refine or_congr (and_congr_left fun _ => name_iff_matches) ?_
  constructor
  · rintro ⟨account, name, harn, hregion, haccount, hname⟩
    exact ⟨hregion, account, name, harn, haccount, hname⟩
  · rintro ⟨hregion, account, name, harn, haccount, hname⟩
    exact ⟨account, name, harn, hregion, haccount, hname⟩

theorem gcpResolves_iff_matches {envLocation secretPath location : Bytes} :
    GcpResolves envLocation secretPath location ↔ Matches gcpIdPattern secretPath ∧ location = envLocation ∨
      Matches gcpProjectPattern location ∧ Matches (resourcePattern location) secretPath := by
  rw [GcpResolves, resourceName_iff_matches, ← gcpProject_iff_matches]
  refine or_congr (and_congr_left fun _ => name_iff_matches) ?_
  constructor
  · rintro ⟨id, hresource, hproject, hid⟩
    exact ⟨hproject, id, hresource, hid⟩
  · rintro ⟨hproject, id, hresource, hid⟩
    exact ⟨id, hresource, hproject, hid⟩

/-! Whatever matches is accepted. -/

theorem splitOn_intercalate {pieces : List Bytes} {sep : UInt8} (hne : pieces ≠ [])
    (h : ∀ piece ∈ pieces, sep ∉ piece) :
    splitOn ([sep].intercalate pieces) sep = pieces := List.splitOn_intercalate sep h hne

theorem Name.not_mem {extra s : Bytes} {max : Nat} (h : Name extra max s) {b : UInt8}
    (hb : isDigit b = false ∧ isLower b = false ∧ isUpper b = false ∧ b ∉ extra) : b ∉ s := by
  intro hmem
  have hgood := h.2.2 b hmem
  simp [hb] at hgood

theorem colon_not_mem_region {region : Bytes} (h : region ∈ kRegions) : colon ∉ region := by
  have hall : ∀ region ∈ kRegions, colon ∉ region := by decide +kernel
  exact hall region h

theorem resolveAwsPath_iff {secretPath envLocation manifestPath described location : Bytes} :
    resolveAwsPath secretPath envLocation manifestPath described = .ok location ↔
      AwsResolves envLocation secretPath location := by
  refine ⟨resolveAwsPath_eq_ok, ?_⟩
  rintro (⟨hname, rfl⟩ | ⟨account, name, rfl, hregion, haccount, hname⟩)
  · -- A name has no colon, so it does not look like an ARN.
    have hcolon : colon ∉ secretPath := hname.not_mem (by decide)
    have hprefix : (text "arn:").isPrefixOf secretPath = false := by
      rw [Bool.eq_false_iff]
      intro harn
      exact hcolon ((List.isPrefixOf_iff_prefix.mp harn).subset (by decide))
    have hgood : isAwsSecretName secretPath = true := isName_iff.mpr hname
    simp [resolveAwsPath, hprefix, hgood]
  · have hdigits : colon ∉ account := by
      intro hmem
      have hdigit := haccount.2 colon hmem
      revert hdigit
      decide
    have hsplit : splitOn (arn location account name) colon =
        [text "arn", text "aws", text "secretsmanager", location, account, text "secret", name] := by
      rw [arn_eq_intercalate]
      refine splitOn_intercalate (by simp) ?_
      simp only [List.forall_mem_cons, List.not_mem_nil, false_imp_iff, implies_true, and_true]
      exact ⟨by decide, by decide, by decide, colon_not_mem_region hregion, hdigits, by decide,
        hname.not_mem (by decide)⟩
    have hprefix : (text "arn:").isPrefixOf (arn location account name) = true := by
      rw [List.isPrefixOf_iff_prefix, arn]
      simp only [List.append_assoc]
      exact List.IsPrefix.trans (by decide) (List.prefix_append _ _)
    have hgood : isAwsSecretName name = true := isName_iff.mpr hname
    have hknown : isKnownAwsRegion location = true := by simpa [isKnownAwsRegion] using hregion
    simp [resolveAwsPath, hprefix, hsplit, Prog.throwIf, isAwsAccount_iff.mpr haccount, hgood, requireAwsRegion,
      hknown, bind, Except.bind, pure, Except.pure]

theorem resolveGcpPath_iff {secretPath envLocation manifestPath described location : Bytes} :
    resolveGcpPath secretPath envLocation manifestPath described = .ok location ↔
      GcpResolves envLocation secretPath location := by
  refine ⟨resolveGcpPath_eq_ok, ?_⟩
  rintro (⟨hid, rfl⟩ | ⟨id, rfl, hproject, hid⟩)
  · -- An id has no slash, so it does not look like a resource name.
    have hslash : slash ∉ secretPath := hid.not_mem (by decide)
    have hprefix : (text "projects/").isPrefixOf secretPath = false := by
      rw [Bool.eq_false_iff]
      intro hresource
      exact hslash ((List.isPrefixOf_iff_prefix.mp hresource).subset (by decide))
    have hgood : isGcpSecretId secretPath = true := isName_iff.mpr hid
    simp [resolveGcpPath, hprefix, hgood]
  · have hlocation : slash ∉ location := by
      intro hmem
      have hbyte := hproject.2.2.2.2 slash hmem
      revert hbyte
      decide
    have hsplit : splitOn (resourceName location id) slash = [text "projects", location, text "secrets", id] := by
      rw [resourceName_eq_intercalate]
      refine splitOn_intercalate (by simp) ?_
      simp only [List.forall_mem_cons, List.not_mem_nil, false_imp_iff, implies_true, and_true]
      exact ⟨by decide, hlocation, by decide, hid.not_mem (by decide)⟩
    have hprefix : (text "projects/").isPrefixOf (resourceName location id) = true := by
      rw [List.isPrefixOf_iff_prefix, resourceName]
      simp only [List.append_assoc]
      exact List.prefix_append _ _
    have hgood : isGcpSecretId id = true := isName_iff.mpr hid
    simp [resolveGcpPath, hprefix, hsplit, isGcpProject_iff.mpr hproject, hgood]

/-! What no accepted path contains. -/

/-- Printable ASCII other than space and the bytes that mean something in a URL. -/
def UrlSafe (c : UInt8) : Prop := 33 ≤ c ∧ c ≤ 126 ∧ c ∉ text "?#%"

instance (c : UInt8) : Decidable (UrlSafe c) := inferInstanceAs (Decidable (_ ∧ _))

theorem urlSafe_of_alnum {c : UInt8} (h : isDigit c = true ∨ isLower c = true ∨ isUpper c = true) :
    UrlSafe c := by
  have hbytes : text "?#%" = [63, 35, 37] := rfl
  have hdigit : isDigit c = true ↔ 48 ≤ c ∧ c ≤ 57 := by
    rw [isDigit, Bool.and_eq_true, decide_eq_true_eq, decide_eq_true_eq]
    rfl
  have hlower : isLower c = true ↔ 97 ≤ c ∧ c ≤ 122 := by
    rw [isLower, Bool.and_eq_true, decide_eq_true_eq, decide_eq_true_eq]
    rfl
  have hupper : isUpper c = true ↔ 65 ≤ c ∧ c ≤ 90 := by
    rw [isUpper, Bool.and_eq_true, decide_eq_true_eq, decide_eq_true_eq]
    rfl
  rw [hdigit, hlower, hupper] at h
  simp only [UrlSafe, hbytes, List.mem_cons, List.not_mem_nil, or_false, UInt8.le_iff_toNat_le,
    ← UInt8.toNat_inj] at h ⊢
  simp at h ⊢
  omega

theorem Name.urlSafe {extra s : Bytes} {max : Nat} (h : Name extra max s) (hextra : ∀ c ∈ extra, UrlSafe c) :
    ∀ c ∈ s, UrlSafe c := by
  intro c hc
  rcases h.2.2 c hc with hbyte | hbyte | hbyte | hbyte
  · exact urlSafe_of_alnum (Or.inl hbyte)
  · exact urlSafe_of_alnum (Or.inr (Or.inl hbyte))
  · exact urlSafe_of_alnum (Or.inr (Or.inr hbyte))
  · exact hextra c hbyte

theorem AwsResolves.urlSafe {envLocation secretPath location : Bytes}
    (h : AwsResolves envLocation secretPath location) :
    ∀ c ∈ secretPath, UrlSafe c := by
  have hextra : ∀ c ∈ text "/_+=.@-", UrlSafe c := by decide +kernel
  obtain ⟨hname, -⟩ | ⟨account, name, rfl, hregion, haccount, hname⟩ := h
  · exact hname.urlSafe hextra
  · have hregions : ∀ region ∈ kRegions, ∀ c ∈ region, UrlSafe c := by decide +kernel
    simp only [arn, List.forall_mem_append]
    exact ⟨⟨⟨⟨⟨by decide +kernel, hregions location hregion⟩, by decide +kernel⟩,
      fun c hc => urlSafe_of_alnum (Or.inl (haccount.2 c hc))⟩, by decide +kernel⟩, hname.urlSafe hextra⟩

theorem GcpResolves.urlSafe {envLocation secretPath location : Bytes}
    (h : GcpResolves envLocation secretPath location) :
    ∀ c ∈ secretPath, UrlSafe c := by
  have hextra : ∀ c ∈ text "_-", UrlSafe c := by decide +kernel
  obtain ⟨hid, -⟩ | ⟨id, rfl, hproject, hid⟩ := h
  · exact hid.urlSafe hextra
  · simp only [resourceName, List.forall_mem_append]
    refine ⟨⟨⟨by decide +kernel, fun c hc => ?_⟩, by decide +kernel⟩, hid.urlSafe hextra⟩
    rcases hproject.2.2.2.2 c hc with hbyte | hbyte | rfl
    · exact urlSafe_of_alnum (Or.inr (Or.inl hbyte))
    · exact urlSafe_of_alnum (Or.inl hbyte)
    · decide

/-- A cloud path is accepted if and only if it matches its pattern, resolves in its own
location, and is then safe in a URL. -/
theorem cloud_paths_exact (secretPath envLocation manifestPath described location : Bytes) :
    (resolveAwsPath secretPath envLocation manifestPath described = .ok location ↔
      Matches awsNamePattern secretPath ∧ location = envLocation ∨
        location ∈ kRegions ∧ Matches (arnPattern location) secretPath) ∧
    (resolveGcpPath secretPath envLocation manifestPath described = .ok location ↔
      Matches gcpIdPattern secretPath ∧ location = envLocation ∨
        Matches gcpProjectPattern location ∧ Matches (resourcePattern location) secretPath) ∧
    (resolveAwsPath secretPath envLocation manifestPath described = .ok location ∨
        resolveGcpPath secretPath envLocation manifestPath described = .ok location →
      ∀ c ∈ secretPath, UrlSafe c) := by
  refine ⟨?_, ?_, ?_⟩
  · rw [resolveAwsPath_iff, awsResolves_iff_matches]
  · rw [resolveGcpPath_iff, gcpResolves_iff_matches]
  · rintro (haws | hgcp)
    · exact (resolveAwsPath_eq_ok haws).urlSafe
    · exact (resolveGcpPath_eq_ok hgcp).urlSafe

theorem cloud_paths_exact_arn :
    ∀ c ∈ arn (text "eu-west-1") (text "123456789012") (text "shop/db"), UrlSafe c := by
  have haccepted : resolveAwsPath (arn (text "eu-west-1") (text "123456789012") (text "shop/db"))
      (text "us-east-1") (text "m") (text "secret") = .ok (text "eu-west-1") := by decide +kernel
  exact (cloud_paths_exact _ _ _ _ _).2.2 (Or.inl haccepted)

end Secretov
