import Mathlib.Data.List.Nodup
import OpsScripts.Core.Replacement
import OpsScripts.OneC.Rac
import OpsScripts.OneC.Sessions

/-!
# What the export makes of a listing

For every listing the export gives one object per session, in the order of the
listing. A value loses everything in front of its last colon and is then replaced
when it is the name of the administrator or, name after name, an identifier of an
infobase. Only the two times are restored from the keys that swallowed them.
-/

namespace OpsScripts.OneC

/-! ## The matches in a listing -/

/-- Every line of a session is a match. -/
theorem findallKeyValue_printSessions (L : Layout) (ss : List Session) :
    findallKeyValue (printSessions L ss) =
      ss.flatMap fun s => List.ofFn fun j => cut (keyLine (L.key j) (s.value j)) := by
  have hlines : ∀ l ∈ ss.flatMap (Session.print L), '\n' ∉ l := by
    intro l hl
    obtain ⟨s, -, hl⟩ := List.mem_flatMap.mp hl
    rcases List.mem_append.mp hl with hl | hl
    · obtain ⟨j, rfl⟩ := List.mem_ofFn.mp hl
      exact newline_notMem_keyLine (L.key_line j).1 (s.line j).1
    · rw [List.mem_singleton.mp hl]
      exact List.not_mem_nil
  rw [printSessions, findallKeyValue_unlines hlines, List.filterMap_flatMap]
  congr 1
  funext s
  have hcut : (List.ofFn fun j => keyLine (L.key j) (s.value j)).filterMap (cutLast ':') =
      (List.ofFn fun j => keyLine (L.key j) (s.value j)).map cut := by
    rw [List.filterMap_eq_map_iff_forall_eq_some]
    intro l hl
    obtain ⟨j, rfl⟩ := List.mem_ofFn.mp hl
    exact cutLast_keyLine _ _
  rw [Session.print, List.filterMap_append, hcut, List.map_ofFn,
    List.filterMap_cons_none (show cutLast ':' [] = none from rfl), List.filterMap_nil,
    List.append_nil]
  rfl

/-- The three matches of an infobase. -/
def Infobase.matches (b : Infobase) : List Match :=
  [cut (keyLine "infobase ".toList b.id.text), cut (keyLine "name     ".toList b.name),
    cut (keyLine "descr    ".toList b.descr)]

theorem findallKeyValue_printInfobases (L : Layout) (bs : Infobases) :
    findallKeyValue (printInfobases L bs) = bs.list.flatMap Infobase.matches := by
  have hlines : ∀ l ∈ bs.list.flatMap (Infobase.print L.gap), '\n' ∉ l := by
    intro l hl
    obtain ⟨b, -, hl⟩ := List.mem_flatMap.mp hl
    simp only [Infobase.print, List.mem_append, List.mem_cons, List.not_mem_nil, or_false,
      List.mem_replicate] at hl
    obtain (rfl | rfl | rfl) | ⟨-, rfl⟩ := hl
    · exact newline_notMem_keyLine (by decide) (b.id.notMem (by decide))
    · exact newline_notMem_keyLine (by decide) b.name_line.1
    · exact newline_notMem_keyLine (by decide) b.descr_line.1
    · exact List.not_mem_nil
  rw [printInfobases, findallKeyValue_unlines hlines, List.filterMap_flatMap]
  congr 1
  funext b
  have hgap : (List.replicate L.gap ([] : Text)).filterMap (cutLast ':') = [] := by
    rw [List.filterMap_eq_nil_iff]
    intro l hl
    rw [List.eq_of_mem_replicate hl]
    rfl
  rw [Infobase.print, List.filterMap_append, hgap, List.append_nil,
    List.filterMap_cons_some (cutLast_keyLine _ _), List.filterMap_cons_some (cutLast_keyLine _ _),
    List.filterMap_cons_some (cutLast_keyLine _ _), List.filterMap_nil, Infobase.matches]

/-! ## The dictionary -/

/-- The dictionary entry of an infobase. -/
def Infobase.entry (b : Infobase) : Text × Text := (printed b.id.text, kept b.name)

theorem Dict.set_of_forall_ne {d : Dict} {k : Text} (h : ∀ e ∈ d, e.1 ≠ k) (v : Text) :
    d.set k v = d ++ [(k, v)] := by
  induction d with
  | nil => rfl
  | cons e d ih =>
    rw [Dict.set, if_neg (h e List.mem_cons_self),
      ih fun f hf => h f (List.mem_cons_of_mem e hf), List.cons_append]

/-- A line whose key begins differently adds nothing. -/
theorem collect_skip {dbb : Dict} {m : Match} {bb : List Match} (h : m.1 ≠ "infobase ".toList) :
    collect dbb (m :: bb) = collect dbb bb := by
  rw [collect, if_neg h]

/-- A line with an identifier takes the value of the next line for the name. -/
theorem collect_infobase {dbb : Dict} {m : Match} (h : m.1 = "infobase ".toList) (m' : Match)
    (bb : List Match) : collect dbb (m :: m' :: bb) = collect (dbb.set m.2 m'.2) (m' :: bb) := by
  rw [collect, if_pos h]
  simp only [List.head?_cons, Option.bind_eq_bind, Option.bind_some]

theorem cut_keyLine_ne {key value : Text} {c : Char} (hc : key.head? = some c) (hi : c ≠ 'i') :
    (cut (keyLine key value)).1 ≠ "infobase ".toList := by
  intro h
  obtain ⟨t, ht⟩ := prefix_cut_keyLine key value
  have hhead := congrArg List.head? ht
  rw [h, List.head?_append, hc, Option.some_or] at hhead
  exact hi (Option.some.inj hhead)

/-- The key of an identifier is untouched. -/
theorem cut_keyLine_id (u : Uuid) :
    cut (keyLine "infobase ".toList u.text) = ("infobase ".toList, printed u.text) := by
  have hcolon : ':' ∉ printed u.text := by
    rw [printed, List.mem_cons, not_or]
    exact ⟨by decide, u.notMem (by decide)⟩
  rw [cut, keyLine, cutLast_append_cons _ hcolon, Option.getD_some]

/-- The dictionary has one entry per infobase, in the order of the summary. -/
theorem collect_matches {bs : List Infobase} {dbb : Dict}
    (h : (dbb.map Prod.fst ++ bs.map fun b => printed b.id.text).Nodup) :
    collect dbb (bs.flatMap Infobase.matches) = some (dbb ++ bs.map Infobase.entry) := by
  induction bs generalizing dbb with
  | nil => simp [collect]
  | cons b bs ih =>
    have hfresh : ∀ e ∈ dbb, e.1 ≠ printed b.id.text := by
      intro e he heq
      refine (List.nodup_append.mp h).2.2 e.1 (List.mem_map_of_mem he) _ ?_ heq
      exact List.mem_cons_self
    have hrest : ((dbb ++ [b.entry]).map Prod.fst ++ bs.map fun b => printed b.id.text).Nodup := by
      rw [List.map_append, List.append_assoc]
      exact h
    rw [List.flatMap_cons, Infobase.matches, cut_keyLine_id, List.cons_append, List.cons_append,
      List.cons_append, List.nil_append, collect_infobase rfl, cut_keyLine_snd,
      Dict.set_of_forall_ne hfresh, collect_skip (cut_keyLine_ne (c := 'n') rfl (by decide)),
      collect_skip (cut_keyLine_ne (c := 'd') rfl (by decide)), ← Infobase.entry, ih hrest,
      List.map_cons, List.append_assoc, List.singleton_append]

/-- The dictionary of a listing. -/
theorem collect_printInfobases (L : Layout) (bs : Infobases) :
    collect [] (findallKeyValue (printInfobases L bs)) = some (bs.list.map Infobase.entry) := by
  have hdistinct : (([] : Dict).map Prod.fst ++
      bs.list.map fun b => printed b.id.text).Nodup := by
    have h := List.Nodup.map printed_injective bs.distinct
    rwa [List.map_map] at h
  rw [findallKeyValue_printInfobases, collect_matches hdistinct, List.nil_append]

/-! ## The rewriting of a value -/

/-- The value that replaces the Russian name of the administrator. -/
def administrator (v : Text) : Text :=
  if v = " Администратор".toList then "Administrator".toList else v

/-- The identifiers replaced one after the other, each by what is kept of the name. -/
def renamed (bs : List Infobase) (v : Text) : Text :=
  bs.foldl (fun v b => if v = printed b.id.text then kept b.name else v) v

theorem replaceAdmin_eq (m : Match) : replaceAdmin m = (m.1, administrator m.2) := by
  by_cases h : m.2 = " Администратор".toList
  · rw [replaceAdmin, administrator, if_pos h, if_pos h]
  · rw [replaceAdmin, administrator, if_neg h, if_neg h]

theorem insertName_map_entry (bs : List Infobase) (m : Match) :
    insertName (bs.map Infobase.entry) m = (m.1, renamed bs m.2) := by
  induction bs generalizing m with
  | nil => rfl
  | cons b bs ih =>
    rw [insertName, renamed, List.map_cons, List.foldl_cons, List.foldl_cons, ← insertName,
      ← renamed, ih, Infobase.entry]
    by_cases h : m.2 = printed b.id.text
    · rw [if_pos h, if_pos h]
    · rw [if_neg h, if_neg h]

/-- A value that is no identifier stays. -/
theorem renamed_of_forall_ne {bs : List Infobase} {v : Text}
    (h : ∀ b ∈ bs, v ≠ printed b.id.text) : renamed bs v = v := by
  induction bs with
  | nil => rfl
  | cons b bs ih =>
    rw [renamed, List.foldl_cons, if_neg (h b List.mem_cons_self), ← renamed]
    exact ih fun c hc => h c (List.mem_cons_of_mem b hc)

/-- A value without a space in front is never an identifier. -/
theorem renamed_of_head {bs : List Infobase} {v : Text} (h : v.head? ≠ some ' ') :
    renamed bs v = v := by
  apply renamed_of_forall_ne
  intro b _ hv
  exact h (by rw [hv]; rfl)

/-! ## The times -/

/-- A blank for every `T`. -/
def blankT (t : Text) : Text := t.map fun c => if c = 'T' then ' ' else c

theorem blankT_of_notMem {t : Text} (h : 'T' ∉ t) : blankT t = t := by
  have hsame : ∀ c ∈ t, (if c = 'T' then ' ' else c) = c := by
    intro c hc
    exact if_neg fun hT : c = 'T' => h (hT ▸ hc)
  rw [blankT, List.map_congr_left hsame, List.map_id']

/-- The time that was cut is put together again. -/
theorem joinTime_iso {key : Text} (hkey : ':' ∉ key) (m : Moment) :
    joinTime (cut (keyLine key m.iso)) = some (blankT (printed m.iso)) := by
  have hhour : ':' ∉ printed m.dateHour := by
    rw [printed, List.mem_cons, not_or]
    exact ⟨by decide, m.notMem_dateHour (by decide)⟩
  have hminute : ':' ∉ DateTime.two m.minute := DateTime.notMem_two _ (by decide)
  have hT : 'T' ∉ ':' :: (DateTime.two m.minute ++ ':' :: DateTime.two m.second) := by
    simp only [List.mem_cons, List.mem_append, not_or]
    exact ⟨by decide, DateTime.notMem_two _ (by decide), by decide,
      DateTime.notMem_two _ (by decide)⟩
  have hsplit : (key ++ ':' :: (printed m.dateHour ++ ':' :: DateTime.two m.minute)).splitOn ':' =
      [key, printed m.dateHour, DateTime.two m.minute] := by
    rw [List.splitOn_append_cons_self, List.splitOn_append_cons_self,
      List.splitOn_eq_singleton hkey, List.splitOn_eq_singleton hhour,
      List.splitOn_eq_singleton hminute]
    rfl
  have hiso : printed m.iso =
      printed m.dateHour ++ ':' :: (DateTime.two m.minute ++ ':' :: DateTime.two m.second) := by
    rw [printed, Moment.iso, printed, List.cons_append]
  rw [cut_keyLine_iso, joinTime, hsplit]
  simp only [List.getElem?_cons_succ, List.getElem?_cons_zero, Option.bind_eq_bind,
    Option.bind_some, replace_singleton]
  rw [hiso, blankT, List.map_append, ← blankT, ← blankT, blankT_of_notMem hT, blankT]

/-- The seconds are neither the administrator nor an identifier. -/
theorem renamed_second (bs : List Infobase) (m : Moment) :
    renamed bs (administrator (DateTime.two m.second)) = DateTime.two m.second := by
  have hhead : (DateTime.two m.second).head? ≠ some ' ' := by
    intro h
    exact DateTime.notMem_two m.second (c := ' ') (by decide) (List.mem_of_head? h)
  have hadmin : DateTime.two m.second ≠ " Администратор".toList := by
    intro h
    exact hhead (by rw [h]; rfl)
  rw [administrator, if_neg hadmin, renamed_of_head hhead]

/-! ## The objects -/

/-- The value that the export gives for a key. -/
def delivered (bs : List Infobase) (s : Session) (j : Fin 49) : Text :=
  if j = Field.startedAt ∨ j = Field.lastActiveAt then blankT (printed (s.value j))
  else renamed bs (administrator (kept (s.value j)))

/-- The match of a line after the rewriting. -/
def rewritten (L : Layout) (bs : List Infobase) (s : Session) (j : Fin 49) : Match :=
  ((cut (keyLine (L.key j) (s.value j))).1, renamed bs (administrator (kept (s.value j))))

theorem joinTime_rewritten {L : Layout} {bs : List Infobase} {s : Session} {j : Fin 49}
    (h : ∃ m : Moment, s.value j = m.iso) :
    joinTime (rewritten L bs s j) = some (blankT (printed (s.value j))) := by
  obtain ⟨m, hm⟩ := h
  have hkept : kept m.iso = DateTime.two m.second := by
    rw [← cut_keyLine_snd (L.key j), cut_keyLine_iso]
  have hsame : rewritten L bs s j = cut (keyLine (L.key j) m.iso) := by
    rw [rewritten, hm, hkept, renamed_second, ← hkept, ← cut_keyLine_snd (L.key j)]
  rw [hsame, joinTime_iso (L.key_colon j), hm]

/-- One pass of the loop, at the place where the lines of a session begin. -/
theorem sessionObject_eq {L : Layout} {bs : List Infobase} {s : Session} {ss : List Match} {i : Nat}
    (h : ∀ j : Fin 49, ss[i + j]? = some (rewritten L bs s j)) :
    sessionObject ss i = some (object (delivered bs s)) := by
  have h9 : ss[i + 9]? = some (rewritten L bs s Field.startedAt) := h 9
  have h10 : ss[i + 10]? = some (rewritten L bs s Field.lastActiveAt) := h 10
  simp only [sessionObject, h9, h10, Option.bind_eq_bind, Option.bind_some,
    joinTime_rewritten s.startedAt, joinTime_rewritten s.lastActiveAt]
  apply mapM_eq_some_map
  intro j _
  have hstarted : j.val = 9 ↔ j = Field.startedAt := ⟨fun h => Fin.ext h, congrArg Fin.val⟩
  have hlast : j.val = 10 ↔ j = Field.lastActiveAt := ⟨fun h => Fin.ext h, congrArg Fin.val⟩
  simp only [h j, delivered, hstarted, hlast]
  by_cases hj9 : j = Field.startedAt
  · simp [hj9]
  · by_cases hj10 : j = Field.lastActiveAt
    · have hne : Field.lastActiveAt ≠ Field.startedAt := by decide
      simp [hj10, hne]
    · simp [hj9, hj10, rewritten]

/-- The matches of the session list after the rewriting. -/
theorem map_rewriting (L : Layout) (bs : List Infobase) (ss : List Session) :
    ((findallKeyValue (printSessions L ss)).map replaceAdmin).map
      (insertName (bs.map Infobase.entry)) = ss.flatMap fun s => List.ofFn (rewritten L bs s) := by
  rw [findallKeyValue_printSessions, List.map_map, List.map_flatMap]
  congr 1
  funext s
  rw [List.map_ofFn]
  congr 1
  funext j
  rw [Function.comp_apply, Function.comp_apply, replaceAdmin_eq, insertName_map_entry,
    cut_keyLine_snd, rewritten]

/-- The loop starts once for every 49 matches. -/
theorem starts_mul (n : Nat) : starts (n * 49 + 1) = (List.range n).map fun k => 1 + k * 49 := by
  have hpasses : (n * 49 + 1 - 1 + 48) / 49 = n := by omega
  rw [starts, hpasses]

/-- The loop over matches that stand behind one more match, 49 for each session. -/
theorem mapM_sessionObject (L : Layout) (bs : List Infobase) (ss : List Session) (m : Match) :
    (starts (m :: ss.flatMap fun s => List.ofFn (rewritten L bs s)).length).mapM
      (sessionObject (m :: ss.flatMap fun s => List.ofFn (rewritten L bs s))) =
        some (ss.map fun s => object (delivered bs s)) := by
  rw [List.length_cons, length_flatMap_ofFn, starts_mul, List.mapM_map]
  apply mapM_range_eq_some_map
  intro k s hs
  apply sessionObject_eq (L := L)
  intro j
  have hplace : 1 + k * 49 + j.val = (k * 49 + j.val) + 1 := by omega
  rw [hplace, List.getElem?_cons_succ, getElem?_flatMap_ofFn, hs, Option.map_some]

/-- The export of printed listings: one object per session, in order. -/
theorem sessionsDetail_print (L : Layout) (bs : Infobases) (ss : List Session) :
    sessionsDetail (printInfobases L bs) (printSessions L ss) =
      some (ss.map fun s => object (delivered bs.list s)) := by
  simp only [sessionsDetail, collect_printInfobases, Option.bind_eq_bind, Option.bind_some,
    List.map_cons, map_rewriting]
  exact mapM_sessionObject L bs.list ss _

end OpsScripts.OneC
