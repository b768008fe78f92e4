import Mathlib.Algebra.BigOperators.Fin
import Mathlib.Algebra.GroupWithZero.Nat
import Mathlib.Algebra.Order.BigOperators.Group.Finset
import OpsScripts.Core.Occurrences
import OpsScripts.OneC.Faithful
import OpsScripts.OneC.Report

/-!
# The counters of the discovery mode

The mode `discovery` counts three kinds of words in the whole session listing: the
name of each application, `yes` and `session-id`. No key except `session-id` contains
one of them, so a counter is a sum over all values of all sessions, and it is the
number of sessions meant exactly when the word stands nowhere but in its own field.
-/

namespace OpsScripts.OneC

/-! ## The mode -/

/-- The applications. -/
def appID : List String :=
  ["1CV8C", "BackgroundJob", "COMConnection", "Designer", "HTTPServiceConnection",
    "ODataConnection", "SrvrConsole", "WebClient"]

/-- `re.findall(element, text).count(element)` for an element of plain letters. -/
def findallCount (element text : Text) : Nat :=
  ((Regex.findall (Regex.exactly element) text).map fun c => c.text 0).count element

/-- The members of the object of an application. -/
def counters (rsessions : Text) (element : String) (count : Nat) : List (Text × Json) :=
  [("APP".toList, .str element.toList), ("Slot".toList, .num count),
    ("Sessions".toList, .num (findallCount element.toList rsessions)),
    ("TotalSleep".toList, .num (findallCount "yes".toList rsessions)),
    ("Totalsessions".toList, .num (findallCount "session-id".toList rsessions))]

/-- The object of an application. -/
def application (rsessions : Text) (element : String) (count : Nat) : Json :=
  .obj (counters rsessions element count)

/-- The text that the mode prints. -/
def discovery (rsessions : Text) : Text :=
  report (appID.zipIdx.map fun p => application rsessions p.1 p.2)

/-- The patterns of the mode stand for themselves. -/
theorem parse_plain_discovery : ∀ element ∈ "yes" :: "session-id" :: appID,
    Regex.parse (fun x y => x == y) element.toList =
      .pattern (Regex.literal (fun x y => x == y) element.toList) := by
  intro element helement
  apply Regex.parse_plain
  have hall : ∀ element ∈ "yes" :: "session-id" :: appID, Regex.Plain element.toList := by
    decide +kernel
  exact hall element helement

/-! ## Counting a word -/

/-- A word without borders and separators. -/
def Word (word : Text) : Prop := Borderless word ∧ ':' ∉ word ∧ ' ' ∉ word ∧ '\n' ∉ word

instance (word : Text) : Decidable (Word word) := instDecidableAnd

theorem findallCount_eq {word : Text} (h : Word word) (t : Text) :
    findallCount word t = occurrences word t := by
  rw [findallCount, Regex.findall_exactly h.1, List.map_replicate]
  exact List.count_replicate_self

/-- The count is additive over lines. -/
theorem occurrences_unlines {word : Text} (h : Word word) (ls : List Text) :
    occurrences word (unlines ls) = (ls.map (occurrences word)).sum := by
  induction ls with
  | nil => exact occurrences_nil h.1.1
  | cons l ls ih =>
    have hcons : unlines (l :: ls) = l ++ '\n' :: unlines ls := by
      simp only [unlines, List.flatMap_cons, List.append_assoc, List.singleton_append]
    rw [hcons, occurrences_append_cons h.1.1 h.2.2.2, ih, List.map_cons, List.sum_cons]

/-- The count is additive over the key and the value of a line. -/
theorem occurrences_keyLine {word : Text} (h : Word word) (key value : Text) :
    occurrences word (keyLine key value) = occurrences word key + occurrences word value := by
  have hblank := occurrences_append_cons h.1.1 h.2.2.1 [] value
  rw [List.nil_append, occurrences_nil h.1.1, Nat.zero_add] at hblank
  rw [keyLine, printed, occurrences_append_cons h.1.1 h.2.1, hblank]

/-! ## The listing -/

/-- The spaces behind the keys of a session, and the gap behind an infobase. -/
structure Padding where
  width : Fin 49 → Nat
  gap : Nat

/-- The layout with the keys of `rac`. -/
def Padding.layout (P : Padding) : Layout where
  key j := pad (P.width j) (fieldNames.get j).toList
  key_line j := oneLine_pad _ (fieldNames_plain j).1
  key_colon j := notMem_pad _ (by decide) (fieldNames_plain j).2
  gap := P.gap

/-- The occurrences of a word in all values of a session. -/
def inValues (word : Text) (s : Session) : Nat := ∑ j, occurrences word (s.value j)

/-- The occurrences of a word in all keys. -/
def inKeys (word : Text) : Nat := ∑ j, occurrences word (fieldNames.get j).toList

/-- Every session counts its values, and the keys once. -/
theorem findallCount_printSessions {word : Text} (h : Word word) (P : Padding)
    (ss : List Session) : findallCount word (printSessions P.layout ss) =
      (ss.map fun s => inKeys word + inValues word s).sum := by
  have hline : ∀ s : Session, ∀ j : Fin 49,
      occurrences word (keyLine (P.layout.key j) (s.value j)) =
        occurrences word (fieldNames.get j).toList + occurrences word (s.value j) := by
    intro s j
    rw [occurrences_keyLine h]
    exact congrArg (· + _) (occurrences_append_replicate h.1.1 h.2.2.1 _ _)
  have hsession : ∀ s : Session, ((s.print P.layout).map (occurrences word)).sum =
      inKeys word + inValues word s := by
    intro s
    rw [Session.print, List.map_append, List.sum_append, List.map_ofFn, List.sum_ofFn,
      List.map_singleton, List.sum_singleton, occurrences_nil h.1.1, Nat.add_zero, inKeys,
      inValues, ← Finset.sum_add_distrib]
    exact Finset.sum_congr rfl fun j _ => hline s j
  rw [findallCount_eq h, printSessions, occurrences_unlines h]
  induction ss with
  | nil => rfl
  | cons s ss ih =>
    rw [List.flatMap_cons, List.map_append, List.sum_append, hsession, ih, List.map_cons,
      List.sum_cons]

/-! ## Sums and counts -/

/-- A sum of numbers is a count when every term is the indicator of the count. -/
theorem sum_eq_countP_iff {α : Type} {f : α → Nat} {p : α → Bool}
    (h : ∀ x, p x = true → 1 ≤ f x) (xs : List α) :
    (xs.map f).sum = xs.countP p ↔ ∀ x ∈ xs, f x = if p x then 1 else 0 := by
  have hle : ∀ xs : List α, xs.countP p ≤ (xs.map f).sum := by
    intro xs
    induction xs with
    | nil => exact le_rfl
    | cons x xs ih =>
      rw [List.countP_cons, List.map_cons, List.sum_cons]
      by_cases hx : p x = true
      · have := h x hx
        rw [if_pos hx]
        omega
      · rw [if_neg hx]
        omega
  induction xs with
  | nil => simp
  | cons x xs ih =>
    have hxs := hle xs
    rw [List.countP_cons, List.map_cons, List.sum_cons, List.forall_mem_cons]
    refine Iff.trans ?_ (and_congr_right' ih)
    by_cases hx : p x = true
    · have := h x hx
      rw [if_pos hx]
      omega
    · rw [if_neg hx]
      omega

/-- A word stands in the values of a session as one of its fields only. -/
theorem inValues_eq_iff {word : Text} (h : Borderless word) (s : Session) (field : Fin 49) :
    inValues word s = (if decide (s.value field = word) = true then 1 else 0) ↔
      ∀ j, word <:+: s.value j → j = field ∧ s.value j = word := by
  have hindicator : (if decide (s.value field = word) = true then 1 else 0) =
      ∑ j, if j = field ∧ s.value j = word then 1 else 0 := by
    by_cases hfield : s.value field = word
    · have hone : ∀ j, (if j = field ∧ s.value j = word then 1 else 0) =
          if j = field then 1 else 0 := by
        intro j
        by_cases hj : j = field
        · rw [hj, if_pos ⟨rfl, hfield⟩, if_pos rfl]
        · rw [if_neg fun hand => hj hand.1, if_neg hj]
      simp only [hone, Finset.sum_ite_eq', Finset.mem_univ, if_true, decide_eq_true hfield]
    · have hzero : ∀ j, (if j = field ∧ s.value j = word then 1 else 0) = 0 := by
        intro j
        rw [if_neg]
        rintro ⟨rfl, hj⟩
        exact hfield hj
      simp only [hzero, Finset.sum_const_zero, decide_eq_false hfield, Bool.false_eq_true, if_false]
  have hle : ∀ j, (if j = field ∧ s.value j = word then 1 else 0) ≤
      occurrences word (s.value j) := by
    intro j
    split_ifs with hj
    · rw [hj.2, h.occurrences_self]
    · exact Nat.zero_le _
  rw [hindicator, inValues, eq_comm, Finset.sum_eq_sum_iff_of_le fun j _ => hle j]
  constructor
  · intro heq j hj
    have hjeq := heq j (Finset.mem_univ j)
    by_contra hnot
    rw [if_neg hnot, eq_comm, occurrences_eq_zero_iff h.1] at hjeq
    exact hjeq hj
  · intro hall j _
    by_cases hj : word <:+: s.value j
    · rw [if_pos (hall j hj), (hall j hj).2, h.occurrences_self]
    · rw [(occurrences_eq_zero_iff h.1 _).mpr hj, if_neg]
      rintro ⟨-, hword⟩
      exact hj (by rw [hword])

/-! ## The keys -/

/-- No key has a capital letter or the word `yes`, and one is the word `session-id`. -/
theorem fieldNames_words : ∀ j : Fin 49,
    ((fieldNames.get j).toList.all fun x => !x.isUpper) = true ∧
      occurrences "yes".toList (fieldNames.get j).toList = 0 ∧
      occurrences "session-id".toList (fieldNames.get j).toList = if j.val = 1 then 1 else 0 := by
  decide +kernel

theorem inKeys_yes : inKeys "yes".toList = 0 :=
  Finset.sum_eq_zero fun j _ => (fieldNames_words j).2.1

theorem inKeys_sessionId : inKeys "session-id".toList = 1 := by
  rw [inKeys, Finset.sum_congr rfl fun j _ => (fieldNames_words j).2.2]
  decide +kernel

theorem inKeys_of_upper {word : Text} (hne : word ≠ [])
    (h : word.any (fun x => x.isUpper) = true) : inKeys word = 0 := by
  apply Finset.sum_eq_zero
  intro j _
  rw [occurrences_eq_zero_iff hne]
  intro hj
  obtain ⟨x, hx, hupper⟩ := List.any_eq_true.mp h
  have hlower := List.all_eq_true.mp (fieldNames_words j).1 x (hj.subset hx)
  rw [hupper] at hlower
  cases hlower

/-! ## The counters -/

theorem appID_words : ∀ a ∈ appID, Word a.toList ∧ a.toList.any (fun x => x.isUpper) = true := by
  decide +kernel

theorem word_yes : Word "yes".toList := by decide +kernel

theorem word_sessionId : Word "session-id".toList := by decide +kernel

/-- A counter of a word that no key contains. -/
theorem findallCount_eq_countP_iff {word : Text} (h : Word word) (hkeys : inKeys word = 0)
    (P : Padding) (ss : List Session) (field : Fin 49) :
    findallCount word (printSessions P.layout ss) =
        ss.countP (fun s => decide (s.value field = word)) ↔
      ∀ s ∈ ss, ∀ j, word <:+: s.value j → j = field ∧ s.value j = word := by
  have hone : ∀ s : Session, decide (s.value field = word) = true →
      1 ≤ inKeys word + inValues word s := by
    intro s hs
    have hle := Finset.single_le_sum (f := fun j => occurrences word (s.value j))
      (fun j _ => Nat.zero_le _) (Finset.mem_univ field)
    rw [of_decide_eq_true hs, h.1.occurrences_self] at hle
    rw [inValues]
    omega
  rw [findallCount_printSessions h, sum_eq_countP_iff hone]
  refine forall₂_congr fun s _ => ?_
  rw [hkeys, Nat.zero_add, inValues_eq_iff h.1]

/-- The counter of the key `session-id`. -/
theorem findallCount_sessionId_iff (P : Padding) (ss : List Session) :
    findallCount "session-id".toList (printSessions P.layout ss) = ss.length ↔
      ∀ s ∈ ss, ∀ j, ¬"session-id".toList <:+: s.value j := by
  have hlength : ss.length = ss.countP fun _ => true := by rw [List.countP_true]
  rw [findallCount_printSessions word_sessionId, inKeys_sessionId, hlength,
    sum_eq_countP_iff fun s _ => Nat.le_add_right 1 _]
  refine forall₂_congr fun s _ => ?_
  rw [if_pos rfl, Nat.add_eq_left, inValues, Finset.sum_eq_zero_iff]
  refine forall_congr' fun j => ?_
  rw [occurrences_eq_zero_iff word_sessionId.1.1]
  exact ⟨fun hj => hj (Finset.mem_univ j), fun hj _ => hj⟩

/-! ## The printed counters -/

/-- What is counted stands in its own field only. -/
def WordsApart (s : Session) : Prop :=
  (∀ a ∈ appID, ∀ j, a.toList <:+: s.value j → j = Field.appId ∧ s.value j = a.toList) ∧
    (∀ j, "yes".toList <:+: s.value j → j = Field.hibernate ∧ s.value j = "yes".toList) ∧
    ∀ j, ¬"session-id".toList <:+: s.value j

/-- The object of an application gives the numbers of its sessions, of all sleeping
sessions and of all sessions. -/
def RightFor (ss : List Session) (a : String) (item : Json) : Prop :=
  item.get "APP".toList = some (.str a.toList) ∧
    item.get "Sessions".toList =
      some (.num (ss.countP fun s => decide (s.value Field.appId = a.toList))) ∧
    item.get "TotalSleep".toList =
      some (.num (ss.countP fun s => decide (s.value Field.hibernate = "yes".toList))) ∧
    item.get "Totalsessions".toList = some (.num ss.length)

/-- The mode prints an array with a right object for each application. -/
def CountersRight (P : Padding) (ss : List Session) : Prop :=
  ∃ items, Json.loads (discovery (printSessions P.layout ss)) = some (.arr items) ∧
    List.Forall₂ (RightFor ss) appID items

/-- The array that is printed. -/
theorem loads_discovery (rsessions : Text) : Json.loads (discovery rsessions) =
    some (.arr (appID.zipIdx.map fun p => (application rsessions p.1 p.2).sortKeys)) := by
  have hkeys : ∀ Q : List Text → Prop, Q ["APP".toList, "Slot".toList, "Sessions".toList,
      "TotalSleep".toList, "Totalsessions".toList] → ∀ ps : List (String × Nat),
      Json.AllKeysItems Q (ps.map fun p => application rsessions p.1 p.2) := by
    intro Q hQ ps
    induction ps with
    | nil => trivial
    | cons p ps ih => exact ⟨⟨hQ, trivial, trivial, trivial, trivial, trivial, trivial⟩, ih⟩
  have hne : appID.zipIdx.map (fun p => application rsessions p.1 p.2) ≠ [] :=
    List.cons_ne_nil _ _
  rw [discovery, loads_report hne, Json.sortItems_eq_map, List.map_map]
  · rfl
  · apply hkeys
    have hplain : (["APP", "Slot", "Sessions", "TotalSleep", "Totalsessions"].map
        String.toList).all plainKey = true := by decide +kernel
    exact fun k hk => List.all_eq_true.mp hplain k hk
  · apply hkeys
    decide +kernel

/-- An object is right when its three counters are. -/
theorem rightFor_application_iff (rsessions : Text) (ss : List Session) (a : String) (n : Nat) :
    RightFor ss a (application rsessions a n).sortKeys ↔
      findallCount a.toList rsessions =
          ss.countP (fun s => decide (s.value Field.appId = a.toList)) ∧
        findallCount "yes".toList rsessions =
          ss.countP (fun s => decide (s.value Field.hibernate = "yes".toList)) ∧
        findallCount "session-id".toList rsessions = ss.length := by
  have hnodup : ((counters rsessions a n).map Prod.fst).Nodup := by
    change ["APP".toList, "Slot".toList, "Sessions".toList, "TotalSleep".toList,
      "Totalsessions".toList].Nodup
    decide +kernel
  have hget : ∀ k v, (k, v) ∈ counters rsessions a n →
      (application rsessions a n).sortKeys.get k = some v.sortKeys := by
    intro k v hm
    rw [application, Json.get_sortKeys hnodup, Json.get_eq_some_of_mem hnodup hm, Option.map_some]
  have happ := hget "APP".toList (.str a.toList)
    (by simp only [counters, List.mem_cons, true_or])
  have hsessions := hget "Sessions".toList (.num (findallCount a.toList rsessions))
    (by simp only [counters, List.mem_cons, true_or, or_true])
  have hsleep := hget "TotalSleep".toList (.num (findallCount "yes".toList rsessions))
    (by simp only [counters, List.mem_cons, true_or, or_true])
  have htotal := hget "Totalsessions".toList (.num (findallCount "session-id".toList rsessions))
    (by simp only [counters, List.mem_cons, true_or, or_true])
  rw [RightFor, happ, hsessions, hsleep, htotal]
  simp only [Json.sortKeys, Option.some.injEq, Json.num.injEq, true_and]

/-- The three counters that have to be right. -/
theorem countersRight_iff_counts (P : Padding) (ss : List Session) :
    CountersRight P ss ↔ ∀ a ∈ appID,
      findallCount a.toList (printSessions P.layout ss) =
          ss.countP (fun s => decide (s.value Field.appId = a.toList)) ∧
        findallCount "yes".toList (printSessions P.layout ss) =
          ss.countP (fun s => decide (s.value Field.hibernate = "yes".toList)) ∧
        findallCount "session-id".toList (printSessions P.layout ss) = ss.length := by
  simp only [CountersRight, loads_discovery, Option.some.injEq, Json.arr.injEq, exists_eq_left']
  exact forall₂_zipIdx_iff
    (fun a _ => rightFor_application_iff (printSessions P.layout ss) ss a) 0

/-- The printed counters are right exactly when every session keeps the words apart. -/
theorem countersRight_iff (P : Padding) (ss : List Session) :
    CountersRight P ss ↔ ∀ s ∈ ss, WordsApart s := by
  have hyes := findallCount_eq_countP_iff word_yes inKeys_yes P ss Field.hibernate
  have hid := findallCount_sessionId_iff P ss
  have happ : ∀ a ∈ appID, _ := fun a ha =>
    findallCount_eq_countP_iff (appID_words a ha).1
      (inKeys_of_upper (appID_words a ha).1.1.1 (appID_words a ha).2) P ss Field.appId
  rw [countersRight_iff_counts]
  constructor
  · intro h s hs
    have hDesigner : "Designer" ∈ appID := by simp only [appID, List.mem_cons, true_or, or_true]
    obtain ⟨-, hsleep, htotal⟩ := h "Designer" hDesigner
    refine ⟨fun a ha => ?_, ?_, ?_⟩
    · exact (happ a ha).mp (h a ha).1 s hs
    · exact hyes.mp hsleep s hs
    · exact hid.mp htotal s hs
  · intro h a ha
    refine ⟨?_, ?_, ?_⟩
    · exact (happ a ha).mpr fun s hs => (h s hs).1 a ha
    · exact hyes.mpr fun s hs => (h s hs).2.1
    · exact hid.mpr fun s hs => (h s hs).2.2

/-! ## A user whose name counts as sleep -/

/-- A session of the user Bayes that does not sleep. -/
def bayesSession : Session where
  value j :=
    if j = Field.startedAt ∨ j = Field.lastActiveAt then noon.iso
    else if j = Field.userName then "Bayes".toList
    else if j = Field.appId then "1CV8C".toList
    else if j = Field.hibernate then "no".toList
    else "0".toList
  line := by decide +kernel
  startedAt := ⟨noon, rfl⟩
  lastActiveAt := ⟨noon, rfl⟩

/-- One sleeping session is reported where none sleeps. -/
theorem bayesSession_not_countersRight : ¬CountersRight ⟨fun _ => 33, 1⟩ [bayesSession] := by
  intro h
  have hsleep := ((countersRight_iff_counts _ _).mp h "1CV8C" List.mem_cons_self).2.1
  have hfield := (findallCount_eq_countP_iff word_yes inKeys_yes _ _ Field.hibernate).mp hsleep
    bayesSession List.mem_cons_self Field.userName
  have hinfix : "yes".toList <:+: bayesSession.value Field.userName :=
    ⟨"Ba".toList, "".toList, by decide +kernel⟩
  exact absurd (hfield hinfix).1 (by decide)

end OpsScripts.OneC
