import OpsScripts.Core.Substitution
import OpsScripts.Reports.Identifiers

/-!
# `job.ps1`

The report of the scheduled tasks ends its lines with the identifier of the account a task runs
as. The names of the accounts are put in afterwards: for each line the identifier at its end is
replaced, but in the whole text, so that it is also found in the other lines, at the front of a
longer identifier, and in the names that are already there.
-/

namespace OpsScripts.Reports

/-! ## The script -/

/-- The order in which `getsid` tries the domains. -/
def taskDomains : List Domain := [.actionCrm, .actiondigital, .amedia, .hq]

/-- The identifier of the system account. -/
def systemSid : Sid where
  text := "S-1-5-18".toList
  form := ⟨"-1-5-18".toList, rfl, by decide⟩

/-- `$localSystem`. -/
def localSystem : Text := "LocalSystem".toList

/-- The users of the domains: the identifier of a user is that of the domain and a number. -/
structure Accounts where
  /-- The name of `Get-ADUser -Server -Identity`. -/
  name : Domain → Sid → Option Text
  domainSid : Domain → Text
  domainSid_begins : ∀ D, D.sid ++ ['-'] <+: domainSid D
  sid_of_name : ∀ D sid, (name D sid).isSome →
    ∃ rid : Text, (∀ c ∈ rid, c.isDigit = true) ∧ sid.text = domainSid D ++ '-' :: rid

section Script

variable [Culture] (d : Accounts)

/-- Read an identifier, in any case. -/
def readSid (t : Text) : Option Sid :=
  match toLower t with
  | 's' :: rest =>
    if h : ∀ c ∈ rest, c ∈ "0123456789-".toList then some ⟨'S' :: rest, rest, rfl, h⟩ else none
  | _ => none

/-- `getsid`. -/
def getsid (tekst2 : Text) : Option Text :=
  match taskDomains.find? fun D => like tekst2 (around D.sid) with
  | some D => (readSid tekst2).bind (d.name D)
  | none => if eqIgnoreCase tekst2 systemSid.text then some localSystem else none

/-- `$tekst -replace "$tekst2",$result` for a plain pattern; nothing if `$result` is no
replacement. -/
def replaceLines (tekst2 result : Text) (tekst : List Text) : Option (List Text) :=
  (Regex.parts result).map fun ps =>
    tekst.map (Regex.substitute (Regex.ignoringCase tekst2) (Regex.expand ps))

/-- One round of the loop over the lines; an error leaves `$tekst` as it was. -/
def patched (tekst : List Text) (teksts : Text) : List Text :=
  let tekst2 := lastPiece '|' teksts
  match getsid d tekst2 with
  | some result => (replaceLines tekst2 result tekst).getD tekst
  | none => tekst

/-- The loop. It goes through the lines as they were read, and each round writes the file. -/
def jobFrom : List Text → Option (List Text) → List Text → Option (List Text)
  | _, file, [] => file
  | tekst, _, teksts :: rest =>
    let tekst := patched d tekst teksts
    jobFrom tekst (some tekst) rest

/-- The file behind the loop, `file` being the one before it. -/
def job (file : Option (List Text)) (report : List Text) : Option (List Text) :=
  jobFrom d report file report

end Script

/-! ## What the names are for -/

section Purpose

variable [Culture] (d : Accounts)

/-- The name of exactly this identifier. -/
def accountName (sid : Sid) : Option Text :=
  if sid.text = systemSid.text then some localSystem
  else domains.findSome? fun D => d.name D sid

/-- The identifier at the end of a line, if it has a name. -/
def named (line : Text) : Option (Sid × Text) :=
  (readSid (lastPiece '|' line)).bind fun sid => (accountName d sid).map fun n => (sid, n)

/-- The line up to its last field. -/
def frontOf (line : Text) : Text := line.take (line.length - (lastPiece '|' line).length)

/-- What the last field is to be. -/
def resolvedField (line : Text) : Text :=
  match named d line with
  | some (_, n) => n
  | none => lastPiece '|' line

/-- The line with the name in place of the identifier at its end. -/
def resolvedLine (line : Text) : Text := frontOf line ++ resolvedField d line

/-- The file is the report with the names in place of the identifiers. -/
def Correct (file : Option (List Text)) (report : List Text) : Prop :=
  job d file report = some (report.map (resolvedLine d))

/-- An identifier is found in a text. -/
def Occurs (sid : Sid) (t : Text) : Prop := toLower sid.text <:+: toLower t

/-- No line so far has changed the identifier at the end of this one. -/
def Pending (earlier : List Text) (other : Text) : Prop :=
  (named d other).isSome ∧
    ∀ line ∈ earlier, ∀ sid n, named d line = some (sid, n) → ¬Occurs sid (lastPiece '|' other)

/-- An identifier does no harm to a line: it is neither found in front nor in what is already
right, and if it is found at the end its name gives what is to be there. -/
def Harmless (earlier : List Text) (sid : Sid) (n other : Text) : Prop :=
  ¬Occurs sid (frontOf other) ∧
    (¬Pending d earlier other → ¬Occurs sid (resolvedField d other)) ∧
    (Pending d earlier other → Occurs sid (lastPiece '|' other) → Regex.Literal n ∧
      n ++ (lastPiece '|' other).drop sid.text.length = resolvedField d other)

/-- No identifier does harm to a line, in the order of the lines. -/
def Apart (file : Option (List Text)) (report : List Text) : Prop :=
  (report = [] → file = some []) ∧
    ∀ earlier line later, report = earlier ++ line :: later →
      ∀ sid n, named d line = some (sid, n) → ∀ other ∈ report, Harmless d earlier sid n other

/-- A name that stands for itself in a replacement and holds neither a bar nor as many dashes as
an identifier. -/
def Simple (n : Text) : Prop := Regex.Literal n ∧ '|' ∉ n ∧ (toLower n).count '-' < 3

end Purpose

/-! ## Identifiers in a text -/

section Sids

variable [Culture] {d : Accounts}

theorem toLower_sid (sid : Sid) : ∃ rest, sid.text = 'S' :: rest ∧ SidTail rest ∧
    toLower sid.text = 's' :: rest := by
  obtain ⟨rest, htext, hrest⟩ := sid.form
  exact ⟨rest, htext, hrest, by rw [htext, toLower_S, toLower_sidTail hrest]⟩

theorem readSid_eq_some_iff {t : Text} {sid : Sid} :
    readSid t = some sid ↔ toLower t = toLower sid.text := by
  obtain ⟨rest, htext, hrest, hlower⟩ := toLower_sid sid
  rw [readSid, hlower]
  constructor
  · intro h
    split at h
    · next rest' heq =>
      split_ifs at h with hdigits
      have heq' : 'S' :: rest' = sid.text := congrArg Sid.text (Option.some.inj h)
      rw [htext] at heq'
      rw [heq, (List.cons.inj heq').2]
    · cases h
  · intro h
    have hdigits : ∀ c ∈ rest, c ∈ "0123456789-".toList := hrest
    rw [h]
    simp only [dif_pos hdigits]
    exact congrArg some (Sid.ext htext.symm)

/-- The identifier of a domain is searched for in the identifier itself. -/
theorem like_of_readSid {t : Text} {sid : Sid} (h : readSid t = some sid) (D : Domain) :
    like t (around D.sid) = true ↔ D.sid <+: sid.text := by
  have hsid := like_sid_iff sid D (Or.inl rfl)
  rw [List.append_nil] at hsid
  rw [← hsid, like_around_iff D.sid_form, like_around_iff D.sid_form,
    readSid_eq_some_iff.mp h]

omit [Culture] in
/-- The users of a domain have its identifiers. -/
theorem sid_prefix_of_name {D : Domain} {sid : Sid} (h : (d.name D sid).isSome) :
    ∃ rid, sid.text = D.sid ++ '-' :: rid := by
  obtain ⟨rid, -, htext⟩ := d.sid_of_name D sid h
  obtain ⟨u, hu⟩ := d.domainSid_begins D
  exact ⟨u ++ '-' :: rid, by rw [htext, ← hu]; simp⟩

omit [Culture] in
theorem not_sid_prefix_systemSid (D : Domain) : ¬D.sid <+: systemSid.text := by
  have hall : ∀ D ∈ domains, ¬D.sid <+: systemSid.text := by decide +kernel
  exact hall D (mem_domains D)

omit [Culture] in
/-- An identifier has its name in the domain it begins with. -/
theorem accountName_of_begins {D : Domain} {sid : Sid} (h : D.sid <+: sid.text) :
    accountName d sid = d.name D sid := by
  have hother : ∀ D' ≠ D, d.name D' sid = none := by
    intro D' hne
    rw [← Option.not_isSome_iff_eq_none]
    intro hsome
    obtain ⟨rid, hrid⟩ := sid_prefix_of_name hsome
    rw [hrid] at h
    exact hne (eq_of_sid_begins h).symm
  have hsystem : sid.text ≠ systemSid.text := fun heq => not_sid_prefix_systemSid D (heq ▸ h)
  rw [accountName, if_neg hsystem]
  cases hname : d.name D sid with
  | none =>
    refine List.findSome?_eq_none_iff.mpr fun D' _ => ?_
    by_cases heq : D' = D
    · rw [heq, hname]
    · exact hother D' heq
  | some n =>
    have hsome : (domains.findSome? fun D => d.name D sid).isSome :=
      List.findSome?_isSome_iff.mpr ⟨D, mem_domains D, by rw [hname]; rfl⟩
    obtain ⟨m, hm⟩ := Option.isSome_iff_exists.mp hsome
    obtain ⟨D', -, hD'⟩ := List.exists_of_findSome?_eq_some hm
    have heq : D' = D := by
      by_contra hne
      rw [hother D' hne] at hD'
      cases hD'
    rw [hm, ← hD', heq, hname]

omit [Culture] in
theorem accountName_of_not_begins {sid : Sid} (h : ∀ D : Domain, ¬D.sid <+: sid.text) :
    accountName d sid = if sid.text = systemSid.text then some localSystem else none := by
  have hnone : (domains.findSome? fun D => d.name D sid) = none := by
    rw [List.findSome?_eq_none_iff]
    intro D _
    rw [← Option.not_isSome_iff_eq_none]
    intro hsome
    obtain ⟨rid, hrid⟩ := sid_prefix_of_name hsome
    exact h D ⟨'-' :: rid, hrid.symm⟩
  rw [accountName, hnone]

/-- `getsid` gives the name of exactly the identifier that it is asked for. -/
theorem getsid_eq (t : Text) : getsid d t = (readSid t).bind (accountName d) := by
  have hsystem : eqIgnoreCase t systemSid.text = true ↔ readSid t = some systemSid := by
    rw [readSid_eq_some_iff, eqIgnoreCase, beq_iff_eq]
  rw [getsid]
  cases hread : readSid t with
  | none =>
    split
    · rfl
    · rw [if_neg fun h => by rw [hsystem.mp h] at hread; cases hread]
      rfl
  | some sid =>
    rw [Option.bind_some]
    split
    · next D hfind =>
      have hlike := List.find?_some hfind
      rw [like_of_readSid hread] at hlike
      exact (accountName_of_begins hlike).symm
    · next hfind =>
      have hnot : ∀ D : Domain, ¬D.sid <+: sid.text := by
        intro D hbegins
        have hlike := List.find?_eq_none.mp hfind D (by cases D <;> decide)
        exact hlike ((like_of_readSid hread D).mpr hbegins)
      rw [accountName_of_not_begins hnot]
      refine if_congr ?_ rfl rfl
      rw [hsystem, hread, Option.some.injEq, Sid.ext_iff]

/-- The letters of identifiers have no meaning in a pattern, in any case. -/
theorem token_of_lower {c : Char} (h : Culture.lower c ∈ "s0123456789-".toList) :
    Regex.token c = .letter := by
  have hspecial : ∀ x ∈ ".()|*+?\\[\x7b^$".toList,
      x.val < 128 ∧ x.toLower ∉ "s0123456789-".toList := by decide
  by_contra hne
  have hmem : c ∈ ".()|*+?\\[\x7b^$".toList := by
    by_contra hnot
    simp at hnot
    simp [Regex.token, hnot] at hne
  obtain ⟨hascii, hnot⟩ := hspecial c hmem
  rw [Culture.lower_ascii c hascii] at h
  exact hnot h

/-- What `getsid` finds is a plain pattern. -/
theorem parse_of_getsid {t n : Text} (h : getsid d t = some n) :
    Regex.parse (letterEq true) t = .pattern (Regex.ignoringCase t) := by
  refine Regex.parse_plain _ fun c hc => token_of_lower ?_
  rw [getsid_eq] at h
  obtain ⟨sid, hread, -⟩ := Option.bind_eq_some_iff.mp h
  obtain ⟨rest, -, hrest, hlower⟩ := toLower_sid sid
  have hmem : Culture.lower c ∈ 's' :: rest := by
    rw [← hlower, ← readSid_eq_some_iff.mp hread]
    exact List.mem_map_of_mem hc
  rcases List.mem_cons.mp hmem with heq | hmem
  · rw [heq]
    decide
  · exact List.mem_cons_of_mem _ (hrest _ hmem)

omit [Culture] in
/-- A line is its front and its last field; the front is empty or ends in a bar. -/
theorem front_cases (line : Text) :
    (frontOf line = [] ∧ lastPiece '|' line = line) ∨
      ∃ s, frontOf line = s ++ ['|'] ∧ line = s ++ '|' :: lastPiece '|' line := by
  by_cases hbar : '|' ∈ line
  · obtain ⟨s, u, rfl, hu⟩ := exists_last_split hbar
    right
    refine ⟨s, ?_, ?_⟩
    · rw [frontOf, lastPiece_append_cons, lastPiece_of_notMem hu]
      have hlength : (s ++ '|' :: u).length - u.length = (s ++ ['|']).length := by
        simp only [List.length_append, List.length_cons, List.length_nil]
        omega
      have hassoc : s ++ '|' :: u = (s ++ ['|']) ++ u := by simp
      rw [hlength, hassoc, List.take_left]
    · rw [lastPiece_append_cons, lastPiece_of_notMem hu]
  · left
    rw [frontOf, lastPiece_of_notMem hbar, Nat.sub_self]
    exact ⟨List.take_zero, rfl⟩

omit [Culture] in
theorem Sid.ne_nil (sid : Sid) : sid.text ≠ [] := by
  obtain ⟨rest, htext, -⟩ := sid.form
  rw [htext]
  exact List.cons_ne_nil _ _

/-- An identifier is not found in the empty text. -/
theorem not_occurs_nil (sid : Sid) : ¬Occurs sid [] :=
  fun h => sid.ne_nil (List.map_eq_nil_iff.mp (List.infix_nil.mp h))

/-- A bar is no letter of an identifier. -/
theorem bar_notMem (sid : Sid) : Culture.lower '|' ∉ toLower sid.text := by
  obtain ⟨rest, -, hrest, hlower⟩ := toLower_sid sid
  have hbar : Culture.lower '|' = '|' := Culture.lower_ascii '|' (by decide)
  rw [hlower, hbar, List.mem_cons, not_or]
  exact ⟨by decide, notMem_sidTail hrest (by decide)⟩

/-- An identifier is not found across a bar. -/
theorem occurs_append_cons_iff (sid : Sid) (s t : Text) :
    Occurs sid (s ++ '|' :: t) ↔ Occurs sid s ∨ Occurs sid t := by
  constructor
  · intro h
    by_contra hnot
    rw [not_or] at hnot
    -- the replacement by nothing would leave the text as it is
    have hself := (Regex.Replaced.self [] hnot.1).append_cons (bar_notMem sid) sid.ne_nil
      (Regex.Replaced.self [] hnot.2)
    have hlt : (toLower []).count 's' < (toLower sid.text).count 's' := by
      obtain ⟨rest, -, -, hlower⟩ := toLower_sid sid
      rw [hlower, List.count_cons_self]
      exact Nat.succ_pos _
    exact absurd ((hself.count_le hlt).2 h) (lt_irrefl _)
  · have hlower : toLower (s ++ '|' :: t) = toLower s ++ Culture.lower '|' :: toLower t :=
      toLower_append s ('|' :: t)
    rintro (h | h)
    · exact h.trans ⟨[], Culture.lower '|' :: toLower t, by rw [hlower, List.nil_append]⟩
    · exact h.trans ⟨toLower s ++ [Culture.lower '|'], [], by rw [hlower]; simp⟩

theorem occurs_front_append_iff (sid : Sid) (line w : Text) :
    Occurs sid (frontOf line ++ w) ↔ Occurs sid (frontOf line) ∨ Occurs sid w := by
  rcases front_cases line with ⟨hfront, -⟩ | ⟨s, hfront, -⟩
  · rw [hfront, List.nil_append, or_iff_right (not_occurs_nil sid)]
  · rw [hfront, List.append_assoc, List.singleton_append, occurs_append_cons_iff,
      occurs_append_cons_iff, or_iff_left (not_occurs_nil sid)]

/-- An identifier that is found in another one is the front of it, and is not found again. -/
theorem exists_of_occurs {t : Text} {sid sid' : Sid} (hread : readSid t = some sid')
    (h : Occurs sid t) : ∃ u, t = u ++ t.drop sid.text.length ∧ toLower u = toLower sid.text ∧
      sid'.text = sid.text ++ toLower (t.drop sid.text.length) ∧
        ∀ other, ¬Occurs other (t.drop sid.text.length) := by
  obtain ⟨rest, htext, -, hlower⟩ := toLower_sid sid
  obtain ⟨rest', htext', hrest', hlower'⟩ := toLower_sid sid'
  have ht := readSid_eq_some_iff.mp hread
  have hs : 's' ∉ rest' := notMem_sidTail hrest' (by decide)
  have hbegins : toLower sid.text <+: toLower t := by
    rw [Occurs, ht, hlower, hlower', List.infix_cons_iff] at h
    rw [ht, hlower, hlower']
    exact h.resolve_right fun hwithin => hs (hwithin.subset List.mem_cons_self)
  obtain ⟨u, v, rfl, hu⟩ := Regex.exists_of_toLower_begins hbegins
  have hlength : u.length = sid.text.length := by
    rw [← length_toLower, hu, length_toLower]
  have hdrop : (u ++ v).drop sid.text.length = v := by rw [← hlength, List.drop_left]
  rw [toLower_append, hu, hlower, hlower', List.cons_append] at ht
  obtain ⟨-, hrest⟩ := List.cons.inj ht
  rw [hdrop]
  refine ⟨u, rfl, hu, ?_, fun other hother => ?_⟩
  · rw [htext, htext', ← hrest, List.cons_append]
  · obtain ⟨_, -, -, hlower⟩ := toLower_sid other
    rw [Occurs, hlower] at hother
    exact hs (hrest ▸ List.mem_append_right _ (hother.subset List.mem_cons_self))

end Sids

/-! ## What a line does to the others -/

section Patch

variable [Culture] (d : Accounts)

/-- What the round for a line makes of another one. -/
def patch (t line : Text) : Text :=
  match named d line with
  | none => t
  | some (_, n) =>
    match Regex.parts n with
    | none => t
    | some ps => Regex.substitute (Regex.ignoringCase (lastPiece '|' line)) (Regex.expand ps) t

/-- A line after the rounds of others. -/
def after (lines : List Text) (t : Text) : Text := lines.foldl (patch d) t

variable {d}

theorem patched_eq_map (tekst : List Text) (line : Text) :
    patched d tekst line = tekst.map fun t => patch d t line := by
  rw [patched]
  simp only [getsid_eq, patch, named]
  cases hread : readSid (lastPiece '|' line) with
  | none => simp
  | some sid =>
    cases hname : accountName d sid with
    | none => simp [hname]
    | some n =>
      cases hparts : Regex.parts n with
      | none => simp [hname, replaceLines, hparts]
      | some ps => simp [hname, replaceLines, hparts]

/-- The file holds what the rounds have made of the lines. -/
theorem job_eq (file : Option (List Text)) (report : List Text) :
    job d file report =
      if report = [] then file else some (report.map (after d report)) := by
  have hfrom : ∀ tekst file rest, jobFrom d tekst file rest =
      if rest = [] then file else some (tekst.map (after d rest)) := by
    intro tekst file rest
    induction rest generalizing tekst file with
    | nil => rfl
    | cons line rest ih =>
      rw [jobFrom, ih, if_neg (List.cons_ne_nil _ _), patched_eq_map]
      split_ifs with hrest
      · rw [hrest]
        rfl
      · rw [List.map_map]
        rfl
  exact hfrom report file report

theorem correct_iff_after (file : Option (List Text)) (report : List Text) :
    Correct d file report ↔ (report = [] → file = some []) ∧
      ∀ other ∈ report, after d report other = resolvedLine d other := by
  rw [Correct, job_eq]
  split_ifs with hreport
  · rw [hreport]
    simp
  · rw [Option.some.injEq, List.map_inj_left]
    simp [hreport]

variable {line : Text} {sid : Sid} {n : Text}

theorem readSid_of_named (h : named d line = some (sid, n)) :
    readSid (lastPiece '|' line) = some sid ∧ accountName d sid = some n := by
  obtain ⟨sid', hread, hname⟩ := Option.bind_eq_some_iff.mp h
  obtain ⟨n', hname', heq⟩ := Option.map_eq_some_iff.mp hname
  obtain ⟨rfl, rfl⟩ := Prod.mk.inj heq
  exact ⟨hread, hname'⟩

theorem patch_of_named (h : named d line = some (sid, n)) (t : Text) : patch d t line =
    match Regex.parts n with
    | none => t
    | some ps => Regex.substitute (Regex.ignoringCase sid.text) (Regex.expand ps) t := by
  rw [patch, h]
  simp only
  rw [Regex.ignoringCase_congr (readSid_eq_some_iff.mp (readSid_of_named h).1)]

/-- A text in which the identifier is not found stays, whatever the name is. -/
theorem patch_of_not_occurs (h : named d line = some (sid, n)) {t : Text} (ht : ¬Occurs sid t) :
    patch d t line = t := by
  rw [patch_of_named h]
  split
  · rfl
  · exact Regex.substitute_eq_self _ ht

/-- A name that stands for itself is put in. -/
theorem patch_of_replaced (h : named d line = some (sid, n)) (hn : Regex.Literal n)
    {t out : Text} (ht : Regex.Replaced sid.text n t out) : patch d t line = out := by
  rw [patch_of_named h, hn]
  simp only [Regex.expand_letters]
  exact ht.substitute_eq sid.ne_nil

/-- The name comes to the front of an identifier that begins with the one of the line. -/
theorem exists_replaced_of_occurs {t : Text} {sid' : Sid} (hread : readSid t = some sid')
    (h : Occurs sid t) (n : Text) :
    Regex.Replaced sid.text n t (n ++ t.drop sid.text.length) := by
  obtain ⟨u, ht, hu, -, hrest⟩ := exists_of_occurs hread h
  have hfound := Regex.Replaced.found hu (.self n (hrest sid))
  rwa [← ht] at hfound

omit [Culture] in
theorem eq_front_append (line : Text) : line = frontOf line ++ lastPiece '|' line := by
  rcases front_cases line with ⟨hfront, hlast⟩ | ⟨s, hfront, hline⟩
  · rw [hfront, hlast, List.nil_append]
  · rw [hfront, List.append_assoc, List.singleton_append]
    exact hline

theorem resolvedLine_of_named_eq_none {other : Text} (h : named d other = none) :
    resolvedLine d other = other := by
  rw [resolvedLine, resolvedField, h]
  exact (eq_front_append other).symm

/-- A replacement in the last field only. -/
theorem replaced_front {other w out : Text} (hfront : ¬Occurs sid (frontOf other))
    (hw : Regex.Replaced sid.text n w out) :
    Regex.Replaced sid.text n (frontOf other ++ w) (frontOf other ++ out) := by
  rcases front_cases other with ⟨hnil, -⟩ | ⟨s, hs, -⟩
  · rwa [hnil]
  · rw [hs, occurs_append_cons_iff, not_or] at hfront
    rw [hs, List.append_assoc, List.append_assoc]
    exact (Regex.Replaced.self n hfront.1).append_cons (bar_notMem sid) sid.ne_nil hw

theorem pending_append_iff {earlier : List Text} {other : Text} :
    Pending d (earlier ++ [line]) other ↔ Pending d earlier other ∧
      ∀ sid n, named d line = some (sid, n) → ¬Occurs sid (lastPiece '|' other) := by
  simp only [Pending, List.forall_mem_append, List.forall_mem_singleton, and_assoc]

/-- A round that finds its identifier at the end of a line and does no harm makes it right. -/
theorem patch_of_occurs {earlier : List Text} {other : Text} (h : named d line = some (sid, n))
    (hharmless : Harmless d earlier sid n other) (hpending : Pending d earlier other)
    (hoccurs : Occurs sid (lastPiece '|' other)) : patch d other line = resolvedLine d other := by
  obtain ⟨hfront, -, hfield⟩ := hharmless
  obtain ⟨hliteral, heq⟩ := hfield hpending hoccurs
  obtain ⟨⟨sid', n'⟩, hnamed⟩ := Option.isSome_iff_exists.mp hpending.1
  have hreplaced := replaced_front hfront
    (exists_replaced_of_occurs (readSid_of_named hnamed).1 hoccurs n)
  rw [← eq_front_append, heq] at hreplaced
  exact patch_of_replaced h hliteral hreplaced

/-- Any other round leaves the line. -/
theorem patch_front_append (h : named d line = some (sid, n)) {other w : Text}
    (hfront : ¬Occurs sid (frontOf other)) (hw : ¬Occurs sid w) :
    patch d (frontOf other ++ w) line = frontOf other ++ w := by
  refine patch_of_not_occurs h fun hother => ?_
  rw [occurs_front_append_iff] at hother
  exact hother.elim hfront hw

/-- Where no round does harm, a line stays until an identifier is found at its end, and is right
from then on. -/
theorem after_of_harmless {earlier : List Text} {other : Text}
    (h : ∀ e line l, earlier = e ++ line :: l → ∀ sid n, named d line = some (sid, n) →
      Harmless d e sid n other) :
    (Pending d earlier other → after d earlier other = other) ∧
      (¬Pending d earlier other → after d earlier other = resolvedLine d other) := by
  induction earlier using List.reverseRecOn with
  | nil =>
    refine ⟨fun _ => rfl, fun hpending => ?_⟩
    have hnone : named d other = none := by
      rw [← Option.not_isSome_iff_eq_none]
      exact fun hsome => hpending ⟨hsome, fun _ hline => nomatch hline⟩
    exact (resolvedLine_of_named_eq_none hnone).symm
  | append_singleton earlier line ih =>
    obtain ⟨ihpending, ihdone⟩ := ih fun e line' l heq =>
      h e line' (l ++ [line]) (by rw [heq]; simp)
    have hstep : after d (earlier ++ [line]) other = patch d (after d earlier other) line := by
      rw [after, List.foldl_append]
      rfl
    rw [hstep, pending_append_iff]
    cases hnamed : named d line with
    | none =>
      have hpatch : ∀ t, patch d t line = t := by
        intro t
        rw [patch, hnamed]
      simp only [hpatch]
      refine ⟨fun hpending => ihpending hpending.1, fun hdone => ihdone fun hpending => ?_⟩
      exact hdone ⟨hpending, fun _ _ hsome => nomatch hsome⟩
    | some pair =>
      obtain ⟨sid, n⟩ := pair
      have hharmless := h earlier line [] rfl sid n hnamed
      by_cases hpending : Pending d earlier other
      · rw [ihpending hpending]
        by_cases hoccurs : Occurs sid (lastPiece '|' other)
        · exact ⟨fun hnot => absurd hoccurs (hnot.2 sid n rfl),
            fun _ => patch_of_occurs hnamed hharmless hpending hoccurs⟩
        · have hstays := patch_front_append hnamed hharmless.1 hoccurs
          rw [← eq_front_append] at hstays
          refine ⟨fun _ => hstays, fun hdone => absurd ⟨hpending, fun sid' n' heq => ?_⟩ hdone⟩
          obtain ⟨rfl, rfl⟩ := Prod.mk.inj (Option.some.inj heq)
          exact hoccurs
      · rw [ihdone hpending]
        exact ⟨fun hnot => absurd hnot.1 hpending,
          fun _ => patch_front_append hnamed hharmless.1 (hharmless.2.1 hpending)⟩

/-- Where no identifier does harm, the file is right. -/
theorem correct_of_apart {file : Option (List Text)} {report : List Text}
    (h : Apart d file report) : Correct d file report := by
  rw [correct_iff_after]
  refine ⟨h.1, fun other hother => ?_⟩
  refine (after_of_harmless fun e line l heq sid n hnamed => h.2 e line l heq sid n hnamed other
    hother).2 fun hpending => ?_
  obtain ⟨⟨sid, n⟩, hnamed⟩ := Option.isSome_iff_exists.mp hpending.1
  refine hpending.2 other hother sid n hnamed ?_
  rw [Occurs, readSid_eq_some_iff.mp (readSid_of_named hnamed).1]

end Patch

/-! ## Names without dashes -/

section Simple

variable [Culture] {d : Accounts} {line : Text} {sid : Sid} {n : Text}

omit [Culture] in
/-- The identifiers with a name. -/
theorem sid_cases (h : accountName d sid = some n) : sid.text = systemSid.text ∨
    ∃ D rid, (∀ c ∈ rid, c.isDigit = true) ∧ sid.text = d.domainSid D ++ '-' :: rid ∧
      D.sid <+: sid.text := by
  by_cases hbegins : ∃ D : Domain, D.sid <+: sid.text
  · obtain ⟨D, hD⟩ := hbegins
    rw [accountName_of_begins hD] at h
    obtain ⟨rid, hrid, htext⟩ := d.sid_of_name D sid (by rw [h]; rfl)
    exact Or.inr ⟨D, rid, hrid, htext, hD⟩
  · rw [accountName_of_not_begins (not_exists.mp hbegins)] at h
    split_ifs at h with hsystem
    exact Or.inl hsystem

omit [Culture] in
/-- An identifier with a name that begins with another one has more digits, and no dash. -/
theorem dash_notMem_rest {sid' : Sid} {n' rest : Text} (h : accountName d sid = some n)
    (h' : accountName d sid' = some n') (hrest : sid'.text = sid.text ++ rest) : '-' ∉ rest := by
  have hbegins : sid.text <+: sid'.text := ⟨rest, hrest.symm⟩
  have hsystem : ∀ D ∈ domains, ¬systemSid.text <+: D.sid := by decide +kernel
  rcases sid_cases h with htext | ⟨D, rid, hrid, htext, hD⟩
  · rcases sid_cases h' with htext' | ⟨D', rid', -, -, hD'⟩
    · rw [htext, htext', List.self_eq_append_right] at hrest
      rw [hrest]
      exact List.not_mem_nil
    · rw [htext] at hbegins
      rcases List.prefix_or_prefix_of_prefix hbegins hD' with hlong | hlong
      · exact absurd hlong (hsystem D' (mem_domains D'))
      · exact absurd hlong (not_sid_prefix_systemSid D')
  · rcases sid_cases h' with htext' | ⟨D', rid', hrid', htext', -⟩
    · exact absurd (htext' ▸ hD.trans hbegins) (not_sid_prefix_systemSid D)
    · obtain ⟨u, hu⟩ := d.domainSid_begins D'
      have hsid' : sid'.text = D'.sid ++ '-' :: (u ++ '-' :: rid') := by
        rw [htext', ← hu]
        simp
      obtain rfl := eq_of_sid_begins (hsid' ▸ hD.trans hbegins)
      rw [htext, htext', List.append_assoc, List.append_cancel_left_eq, List.cons_append,
        List.cons.injEq] at hrest
      intro hdash
      have hdigit := hrid' '-' (hrest.2 ▸ List.mem_append_right _ hdash)
      exact absurd hdigit (by decide)

theorem count_toLower_sid (sid : Sid) (c : Char) (hc : c ≠ 'S' ∧ c ≠ 's') :
    (toLower sid.text).count c = sid.text.count c := by
  obtain ⟨rest, htext, -, hlower⟩ := toLower_sid sid
  rw [hlower, htext, List.count_cons_of_ne hc.2.symm, List.count_cons_of_ne hc.1.symm]

/-- An identifier with a name has more dashes than a simple name. -/
theorem three_le_count (h : named d line = some (sid, n)) :
    3 ≤ (toLower sid.text).count '-' := by
  have hdomain : ∀ D ∈ domains, 3 ≤ D.sid.count '-' := by decide +kernel
  rw [count_toLower_sid sid '-' (by decide)]
  rcases sid_cases (readSid_of_named h).2 with htext | ⟨D, -, -, -, hD⟩
  · rw [htext]
    decide
  · exact (hdomain D (mem_domains D)).trans (hD.sublist.count_le _)

/-- A round takes dashes away, unless the identifier is not found. -/
theorem count_patch (h : named d line = some (sid, n)) (hn : Simple n) (t : Text) :
    (toLower (patch d t line)).count '-' ≤ (toLower t).count '-' ∧
      (Occurs sid t → (toLower (patch d t line)).count '-' < (toLower t).count '-') := by
  obtain ⟨out, hout⟩ := Regex.Replaced.exists_out sid.ne_nil n t
  rw [patch_of_replaced h hn.1 hout]
  exact hout.count_le (hn.2.2.trans_le (three_le_count h))

theorem patch_append_cons (h : named d line = some (sid, n)) (hn : Simple n) (s t : Text) :
    patch d (s ++ '|' :: t) line = patch d s line ++ '|' :: patch d t line := by
  obtain ⟨out, hout⟩ := Regex.Replaced.exists_out sid.ne_nil n s
  obtain ⟨out', hout'⟩ := Regex.Replaced.exists_out sid.ne_nil n t
  rw [patch_of_replaced h hn.1 hout, patch_of_replaced h hn.1 hout']
  exact patch_of_replaced h hn.1 (hout.append_cons (bar_notMem sid) sid.ne_nil hout')

theorem bar_notMem_patch (h : named d line = some (sid, n)) (hn : Simple n) {t : Text}
    (ht : '|' ∉ t) : '|' ∉ patch d t line := by
  obtain ⟨out, hout⟩ := Regex.Replaced.exists_out sid.ne_nil n t
  rw [patch_of_replaced h hn.1 hout]
  exact hout.notMem hn.2.1 ht

/-- Either a line changes nothing, or it has an identifier with a name. -/
theorem patch_induction {motive : Text → Text → Prop} {lines : List Text}
    (hsimple : ∀ line ∈ lines, ∀ sid n, named d line = some (sid, n) → Simple n)
    (refl : ∀ t, motive t t)
    (step : ∀ t out line sid n, line ∈ lines → named d line = some (sid, n) → Simple n →
      motive (patch d t line) out → motive t out) (t : Text) : motive t (after d lines t) := by
  induction lines generalizing t with
  | nil => exact refl t
  | cons line lines ih =>
    have hrest : ∀ t, motive t (after d lines t) := ih
      (fun line hline => hsimple line (List.mem_cons_of_mem _ hline))
      (fun t out line sid n hline => step t out line sid n (List.mem_cons_of_mem _ hline))
    cases hnamed : named d line with
    | none =>
      have hstep : after d (line :: lines) t = after d lines t := by
        rw [after, List.foldl_cons, patch, hnamed, after]
      rw [hstep]
      exact hrest t
    | some pair =>
      exact step t _ line pair.1 pair.2 List.mem_cons_self hnamed
        (hsimple line List.mem_cons_self _ _ hnamed) (hrest (patch d t line))

section Run

variable {lines : List Text}
  (hsimple : ∀ line ∈ lines, ∀ sid n, named d line = some (sid, n) → Simple n)

include hsimple

theorem count_after_le (t : Text) :
    (toLower (after d lines t)).count '-' ≤ (toLower t).count '-' :=
  patch_induction (motive := fun t out => (toLower out).count '-' ≤ (toLower t).count '-') hsimple
    (fun _ => le_rfl)
    (fun t _ _ _ _ _ hnamed hn ih => ih.trans (count_patch hnamed hn t).1) t

theorem bar_notMem_after {t : Text} (ht : '|' ∉ t) : '|' ∉ after d lines t :=
  patch_induction (motive := fun t out => '|' ∉ t → '|' ∉ out) hsimple (fun _ h => h)
    (fun _ _ _ _ _ _ hnamed hn ih h => ih (bar_notMem_patch hnamed hn h)) t ht

/-- In a text with few dashes no identifier is found. -/
theorem after_of_few {t : Text} (ht : (toLower t).count '-' < 3) : after d lines t = t := by
  refine patch_induction (motive := fun t out => (toLower t).count '-' < 3 → out = t) hsimple
    (fun _ _ => rfl) (fun t out line sid n _ hnamed _ ih hlt => ?_) t ht
  have hnot : ¬Occurs sid t := fun hoccurs =>
    absurd ((three_le_count hnamed).trans (hoccurs.sublist.count_le '-')) (not_le.mpr hlt)
  rw [patch_of_not_occurs hnamed hnot] at ih
  exact ih hlt

/-- The fields of a line are changed on their own. -/
theorem after_append_cons (s t : Text) :
    after d lines (s ++ '|' :: t) = after d lines s ++ '|' :: after d lines t := by
  induction lines generalizing s t with
  | nil => rfl
  | cons line lines ih =>
    have hrest := ih fun line hline => hsimple line (List.mem_cons_of_mem _ hline)
    simp only [after, List.foldl_cons] at hrest ⊢
    cases hnamed : named d line with
    | none =>
      simp only [patch, hnamed]
      exact hrest s t
    | some pair =>
      rw [patch_append_cons hnamed (hsimple line List.mem_cons_self _ _ hnamed)]
      exact hrest _ _

end Run

/-- Behind an identifier that begins with that of another account there are digits only. -/
theorem count_drop {other n' : Text} {sid' : Sid} (h : named d line = some (sid, n))
    (h' : named d other = some (sid', n')) (hoccurs : Occurs sid (lastPiece '|' other)) :
    (toLower ((lastPiece '|' other).drop sid.text.length)).count '-' = 0 := by
  obtain ⟨hread', hname'⟩ := readSid_of_named h'
  obtain ⟨-, -, -, htext, -⟩ := exists_of_occurs hread' hoccurs
  exact List.count_eq_zero_of_not_mem (dash_notMem_rest (readSid_of_named h).2 hname' htext)

end Simple

/-! ## When the file is right -/

section Apart

variable [Culture] {d : Accounts}

/-- With simple names, what the last field becomes and that the front stays can be seen from the
line. -/
theorem fields_of_after {lines : List Text} {other n' : Text} {sid' : Sid}
    (hsimple : ∀ line ∈ lines, ∀ sid n, named d line = some (sid, n) → Simple n)
    (hnamed : named d other = some (sid', n')) (hn' : Simple n')
    (h : after d lines other = resolvedLine d other) :
    after d lines (lastPiece '|' other) = n' ∧
      ∀ s, frontOf other = s ++ ['|'] → after d lines s = s := by
  rw [resolvedLine, resolvedField, hnamed] at h
  rcases front_cases other with ⟨hfront, hlast⟩ | ⟨s, hfront, hline⟩
  · rw [hfront, List.nil_append] at h
    rw [hlast, hfront]
    exact ⟨h, fun s hs => absurd hs (by simp)⟩
  · rw [hfront, List.append_assoc, List.singleton_append, hline,
      after_append_cons hsimple] at h
    have hfield := congrArg (lastPiece '|') h
    rw [lastPiece_append_cons, lastPiece_append_cons, lastPiece_of_notMem hn'.2.1,
      lastPiece_of_notMem (bar_notMem_after hsimple (notMem_lastPiece '|' _))] at hfield
    rw [hfield, List.append_cancel_right_eq] at h
    refine ⟨hfield, fun s' hs' => ?_⟩
    rw [hfront, List.append_cancel_right_eq] at hs'
    rw [← hs', h]

/-- A line that is right in the end was not harmed by any round. -/
theorem harmless_of_after {earlier later : List Text} {line other n : Text} {sid : Sid}
    (hsimple : ∀ l ∈ line :: later, ∀ sid n, named d l = some (sid, n) → Simple n)
    (hother : ∀ sid n, named d other = some (sid, n) → Simple n)
    (hnamed : named d line = some (sid, n))
    (hpending : Pending d earlier other → after d earlier other = other)
    (hdone : ¬Pending d earlier other → after d earlier other = resolvedLine d other)
    (h : after d (line :: later) (after d earlier other) = resolvedLine d other) :
    Harmless d earlier sid n other := by
  have hn : Simple n := hsimple line List.mem_cons_self sid n hnamed
  have hlater : ∀ l ∈ later, ∀ sid n, named d l = some (sid, n) → Simple n :=
    fun l hl => hsimple l (List.mem_cons_of_mem _ hl)
  -- a text that stays cannot have lost a dash
  have hstays : ∀ t, after d (line :: later) t = t → ¬Occurs sid t := by
    intro t ht hoccurs
    have hlt := (count_patch hnamed hn t).2 hoccurs
    have hle : (toLower t).count '-' ≤ (toLower (patch d t line)).count '-' := by
      conv_lhs => rw [← ht]
      exact count_after_le hlater (patch d t line)
    exact absurd hlt (not_lt.mpr hle)
  by_cases hwaits : Pending d earlier other
  · obtain ⟨⟨sid', n'⟩, hnamed'⟩ := Option.isSome_iff_exists.mp hwaits.1
    rw [hpending hwaits] at h
    obtain ⟨hfield, hfront⟩ := fields_of_after hsimple hnamed' (hother sid' n' hnamed') h
    refine ⟨?_, fun hright => absurd hwaits hright, fun _ hoccurs => ⟨hn.1, ?_⟩⟩
    · rcases front_cases other with ⟨hnil, -⟩ | ⟨s, hs, -⟩
      · rw [hnil]
        exact not_occurs_nil sid
      · rw [hs, occurs_append_cons_iff, not_or]
        exact ⟨hstays s (hfront s hs), not_occurs_nil sid⟩
    · -- the later rounds find nothing in a name and digits
      have hreplaced := exists_replaced_of_occurs (readSid_of_named hnamed').1 hoccurs n
      have hfew : (toLower (n ++ (lastPiece '|' other).drop sid.text.length)).count '-' < 3 := by
        rw [toLower_append, List.count_append, count_drop hnamed hnamed' hoccurs]
        exact hn.2.2
      have hstep : after d (line :: later) (lastPiece '|' other) =
          after d later (n ++ (lastPiece '|' other).drop sid.text.length) := by
        rw [after, List.foldl_cons, patch_of_replaced hnamed hn.1 hreplaced, after]
      rw [hstep, after_of_few hlater hfew] at hfield
      rw [hfield, resolvedField, hnamed']
  · rw [hdone hwaits] at h
    have hnot := hstays _ h
    rw [resolvedLine, occurs_front_append_iff, not_or] at hnot
    exact ⟨hnot.1, fun _ => hnot.2, fun hright => absurd hright hwaits⟩

/-- With simple names, no identifier has done harm where the file is right. -/
theorem apart_of_correct {file : Option (List Text)} {report : List Text}
    (hsimple : ∀ line ∈ report, ∀ sid n, named d line = some (sid, n) → Simple n)
    (h : Correct d file report) : Apart d file report := by
  rw [correct_iff_after] at h
  have hall : ∀ other ∈ report, ∀ earlier later, report = earlier ++ later →
      ∀ e line l, earlier = e ++ line :: l → ∀ sid n, named d line = some (sid, n) →
        Harmless d e sid n other := by
    intro other hother earlier
    induction earlier using List.reverseRecOn with
    | nil => exact fun _ _ e line l heq => by simp at heq
    | append_singleton earlier line ih =>
      intro later hreport e line' l heq sid n hnamed
      rw [List.append_assoc, List.singleton_append] at hreport
      have hearlier := ih (line :: later) hreport
      rcases List.eq_nil_or_concat l with rfl | ⟨l, x, rfl⟩
      · obtain ⟨hfirst, hlast⟩ := List.append_inj' heq rfl
        obtain rfl := hfirst
        obtain rfl := List.singleton_inj.mp hlast
        obtain ⟨hpending, hdone⟩ := after_of_harmless hearlier
        have hlater : ∀ l ∈ line :: later, ∀ sid n, named d l = some (sid, n) → Simple n :=
          fun l hl => hsimple l (hreport ▸ List.mem_append_right _ hl)
        have hright := h.2 other hother
        rw [hreport, after, List.foldl_append] at hright
        exact harmless_of_after hlater (hsimple other hother) hnamed hpending hdone hright
      · refine hearlier e line' l ?_ sid n hnamed
        have hassoc : e ++ line' :: (l ++ [x]) = (e ++ line' :: l) ++ [x] := by simp
        rw [List.concat_eq_append, hassoc] at heq
        exact (List.append_inj' heq rfl).1
  refine ⟨h.1, fun earlier line later heq sid n hnamed other hother => ?_⟩
  exact hall other hother (earlier ++ [line]) later (by rw [heq]; simp) earlier line [] rfl sid n
    hnamed

/-- Where no identifier does harm the file is right, and with simple names only there. -/
theorem correct_iff_apart (d : Accounts) (file : Option (List Text))
    (report : List Text) : (Apart d file report → Correct d file report) ∧
      ((∀ line ∈ report, ∀ sid n, named d line = some (sid, n) → Simple n) →
        (Correct d file report ↔ Apart d file report)) :=
  ⟨correct_of_apart, fun hsimple => ⟨apart_of_correct hsimple, correct_of_apart⟩⟩

end Apart

section Example

local instance asciiTasks : Culture := Culture.ascii

/-- A domain of two accounts, the number of one being the front of the other. -/
def admins : Accounts where
  name := fun D sid =>
    if D = .hq then
      if sid.text = D.sid ++ "-1-2-500".toList then some "Ann".toList
      else if sid.text = D.sid ++ "-1-2-5001".toList then some "Bob".toList
      else none
    else none
  domainSid := fun D => D.sid ++ "-1-2".toList
  domainSid_begins := fun D => ⟨"1-2".toList, by simp⟩
  sid_of_name := by
    intro D sid h
    split_ifs at h with hD hann hbob
    · exact ⟨"500".toList, by decide, by rw [hann]; simp⟩
    · exact ⟨"5001".toList, by decide, by rw [hbob]; simp⟩
    · cases h
    · cases h

/-- A task of each account. -/
def tasks : List Text :=
  ["a|".toList ++ (Domain.hq.sid ++ "-1-2-500".toList),
    "b|".toList ++ (Domain.hq.sid ++ "-1-2-5001".toList)]

/-- The task of Bob is shown as one of `Ann1`. -/
theorem tasks_not_correct : job admins none tasks = some ["a|Ann".toList, "b|Ann1".toList] ∧
    ∀ file, ¬Correct admins file tasks := by
  have hlines : tasks.map (after admins tasks) = ["a|Ann".toList, "b|Ann1".toList] := by
    decide +kernel
  have hright : tasks.map (resolvedLine admins) = ["a|Ann".toList, "b|Bob".toList] := by
    decide +kernel
  have hjob : ∀ file, job admins file tasks = some ["a|Ann".toList, "b|Ann1".toList] := by
    intro file
    rw [job_eq, if_neg (by decide), hlines]
  refine ⟨hjob none, fun file h => ?_⟩
  rw [Correct, hjob, hright] at h
  exact absurd h (by decide)

end Example

end OpsScripts.Reports
