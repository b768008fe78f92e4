import OpsScripts.Core.Wildcard

/-!
# Security identifiers

The identifiers by which the scripts tell the domains apart, searched for with `-like` in a text.
-/

namespace OpsScripts.Reports

/-- The domains whose users the scripts look up. -/
inductive Domain where
  | actiondigital | amedia | hq | actionCrm
  deriving DecidableEq

/-- All domains, in the order of the group report. -/
def domains : List Domain := [.actiondigital, .amedia, .hq, .actionCrm]

theorem mem_domains (D : Domain) : D ∈ domains := by
  cases D <;> decide

/-- The part of an identifier by which a domain is recognised. -/
def Domain.sid : Domain → Text
  | .actiondigital => "S-1-5-21-2092451560".toList
  | .amedia => "S-1-5-21-1713080955".toList
  | .hq => "S-1-5-21-789336058".toList
  | .actionCrm => "S-1-5-21-1052612494".toList

/-- The beginning of the identifiers of all domains. -/
def anySid : Text := "S-1-5-21-".toList

/-- `-like "*part*"`. -/
def around (part : Text) : Text := '*' :: (part ++ ['*'])

/-- A security identifier. -/
@[ext] structure Sid where
  text : Text
  form : ∃ rest, text = 'S' :: rest ∧ ∀ c ∈ rest, c ∈ "0123456789-".toList

section Identifiers

/-- The characters behind the first letter of an identifier. -/
def SidTail (t : Text) : Prop := ∀ c ∈ t, c ∈ "0123456789-".toList

theorem notMem_sidTail {t : Text} (h : SidTail t) {c : Char} (hc : c ∉ "0123456789-".toList) :
    c ∉ t :=
  fun hmem => hc (h c hmem)

theorem Sid.notMem (sid : Sid) {c : Char} (hc : c ∉ "S0123456789-".toList) : c ∉ sid.text := by
  obtain ⟨rest, htext, hrest⟩ := sid.form
  rw [htext, List.mem_cons, not_or]
  exact ⟨fun h => hc (h ▸ by decide), fun h => hc (List.mem_cons_of_mem _ (hrest c h))⟩

/-- The domains are recognised by identifiers. -/
theorem Domain.sid_form (D : Domain) : ∃ rest, D.sid = 'S' :: rest ∧ SidTail rest := by
  have htail : ∀ D ∈ domains, ∀ c ∈ D.sid.tail, c ∈ "0123456789-".toList := by decide +kernel
  refine ⟨D.sid.tail, ?_, htail D (mem_domains D)⟩
  cases D <;> rfl

theorem anySid_begins (D : Domain) : anySid <+: D.sid := by
  have hall : ∀ D ∈ domains, anySid.isPrefixOf D.sid = true := by decide +kernel
  exact List.isPrefixOf_iff_prefix.mp (hall D (mem_domains D))

/-- No domain is recognised by the identifiers of another one. -/
theorem eq_of_sid_begins {D D' : Domain} {rid : Text} (h : D'.sid <+: D.sid ++ '-' :: rid) :
    D' = D := by
  have hall : ∀ D ∈ domains, ∀ D' ∈ domains,
      D'.sid.length ≤ (D.sid ++ ['-']).length ∧ (D'.sid <+: D.sid ++ ['-'] → D' = D) := by
    decide +kernel
  obtain ⟨hlength, heq⟩ := hall D (mem_domains D) D' (mem_domains D')
  have hdash : D.sid ++ ['-'] <+: D.sid ++ '-' :: rid := ⟨rid, by simp⟩
  exact heq (List.prefix_of_prefix_length_le h hdash hlength)

variable [Culture]

theorem toLower_sidTail {t : Text} (h : SidTail t) : toLower t = t := by
  have hall : ∀ c ∈ "0123456789-".toList, c.val < 128 ∧ c.toLower = c := by decide
  refine (List.map_congr_left fun c hc => ?_).trans (List.map_id t)
  obtain ⟨hascii, hlower⟩ := hall c (h c hc)
  rw [Culture.lower_ascii c hascii, hlower, id]

theorem toLower_S (t : Text) : toLower ('S' :: t) = 's' :: toLower t := by
  have hlower : Culture.lower 'S' = 's' := Culture.lower_ascii 'S' (by decide)
  rw [toLower, List.map_cons, hlower, toLower]

/-- A pattern of letters without a meaning. -/
theorem like_around_iff {part : Text} (h : ∃ rest, part = 'S' :: rest ∧ SidTail rest) (t : Text) :
    like t (around part) = true ↔ toLower part <:+: toLower t := by
  obtain ⟨rest, rfl, hrest⟩ := h
  have hplain : ∀ c ∈ "S0123456789-".toList, Wildcard.isSpecial c = false := by decide
  refine like_between (fun c hc => hplain c ?_) t
  rcases List.mem_cons.mp hc with rfl | hc
  · decide
  · exact List.mem_cons_of_mem _ (hrest c hc)

omit [Culture] in
/-- The identifier of any domain. -/
theorem anySid_form : ∃ rest, anySid = 'S' :: rest ∧ SidTail rest := by
  have htail : ∀ c ∈ "-1-5-21-".toList, c ∈ "0123456789-".toList := by decide
  exact ⟨"-1-5-21-".toList, rfl, htail⟩

/-- An entry without an identifier belongs to no other domain. -/
theorem find?_domains_eq_none {t : Text} (h : like t (around anySid) = false) :
    (domains.find? fun D => like t (around D.sid)) = none := by
  rw [List.find?_eq_none]
  intro D _ hD
  rw [like_around_iff D.sid_form] at hD
  rw [← Bool.not_eq_true, like_around_iff anySid_form] at h
  refine h (List.IsInfix.trans ?_ hD)
  obtain ⟨u, hu⟩ := anySid_begins D
  rw [← hu, toLower_append]
  exact (List.prefix_append _ _).isInfix

omit [Culture] in
/-- A text that cannot have a comma ends before it. -/
theorem prefix_of_prefix_comma {s t u : Text} (hs : ',' ∉ s) (h : s <+: t ++ ',' :: u) :
    s <+: t := by
  have hcomma : t ++ [','] <+: t ++ ',' :: u := ⟨u, by simp⟩
  rcases List.prefix_or_prefix_of_prefix h hcomma with hshort | hlong
  · rcases List.prefix_concat_iff.mp hshort with rfl | hshort
    · exact absurd (List.mem_append_right _ (List.mem_singleton_self ',')) hs
    · exact hshort
  · exact absurd (hlong.subset (List.mem_append_right _ (List.mem_singleton_self ','))) hs

/-- In an identifier, also with the next part of the name, a domain is recognised by the
beginning. -/
theorem like_sid_iff (sid : Sid) (D : Domain) {u : Text} (hu : u = [] ∨ u = ",CN".toList) :
    like (sid.text ++ u) (around D.sid) = true ↔ D.sid <+: sid.text := by
  obtain ⟨rest, htext, hrest⟩ := sid.form
  obtain ⟨part, hpart, htail⟩ := D.sid_form
  have hcn : toLower ",CN".toList = [',', 'c', 'n'] := by
    have hall : ∀ c ∈ ",CN".toList, c.val < 128 := by decide
    exact List.map_congr_left fun c hc => Culture.lower_ascii c (hall c hc)
  have hcomma : ',' ∉ part := notMem_sidTail htail (by decide)
  rw [like_around_iff D.sid_form, htext, hpart, List.cons_append, toLower_S, toLower_S,
    toLower_append, toLower_sidTail htail, toLower_sidTail hrest, List.cons_prefix_cons,
    List.infix_cons_iff, List.cons_prefix_cons]
  have hs : 's' ∉ rest := notMem_sidTail hrest (by decide)
  rcases hu with rfl | rfl
  · have hnil : toLower [] = [] := rfl
    rw [hnil, List.append_nil]
    constructor
    · rintro (h | h)
      · exact ⟨rfl, h.2⟩
      · exact absurd (h.subset List.mem_cons_self) hs
    · exact fun h => Or.inl ⟨rfl, h.2⟩
  · rw [hcn]
    constructor
    · rintro (h | h)
      · exact ⟨rfl, prefix_of_prefix_comma hcomma h.2⟩
      · have hmem := h.subset List.mem_cons_self
        rcases List.mem_append.mp hmem with hmem | hmem
        · exact absurd hmem hs
        · exact absurd hmem (by decide)
    · exact fun h => Or.inl ⟨rfl, h.2.trans (List.prefix_append _ _)⟩

end Identifiers

end OpsScripts.Reports
