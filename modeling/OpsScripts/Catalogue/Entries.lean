import OpsScripts.Core.CloneStore
import OpsScripts.Core.DateTime

/-!
# The entries of a catalogue

Two scripts keep an XML catalogue of named entries with a result and a date. A new
name gets a clone of the second entry, so it is lost while there is no second entry:
the error is suppressed or ignored. After the items of a run have been recorded,
older duplicates, the entries of the template and the outdated entries are removed.
-/

namespace OpsScripts.Catalogue

/-- A `job` or `sep` element: the attribute `Name` or `versions` and two children. -/
structure Entry where
  name : Text
  result : Text
  date : Text
  deriving DecidableEq

/-- The template that is written when the file does not exist. -/
def template : List Entry :=
  [⟨"default".toList, "default".toList, "default".toList⟩,
   ⟨"default".toList, "default".toList, "default".toList⟩]

/-- The catalogue that a run reads; `none` when there is no file. -/
def openFile (file : Option (List Entry)) : List Entry := file.getD template

/-- `addxml`: the second entry is cloned, all its values are overwritten, and the clone
is appended. -/
def addxml (xml : List Entry) (i : Entry) : List Entry :=
  match xml[1]? with
  | none => xml
  | some job => xml ++ [{ job with name := i.name, result := i.result, date := i.date }]

section Phases

variable [Culture]

/-- One item: an entry is added if no name is equal to the new one, and then every
entry with this name gets the result and the date. -/
def exportItem (c : List Entry) (i : Entry) : List Entry :=
  (if c.any fun e => eqIgnoreCase e.name i.name then c else addxml c i).map fun e =>
    if eqIgnoreCase e.name i.name then { e with result := i.result, date := i.date } else e

/-- `Sort-Object @{ e = 'Date'; d = $true }`. -/
def newestFirst (a b : Entry) : Bool := !decide (a.date < b.date)

/-- `Group-Object` over the name: the first entry of each group. -/
def groupObject : List Entry → List Entry
  | [] => []
  | e :: es => e :: (groupObject es).filter fun g => !eqIgnoreCase g.name e.name

/-- The removal of duplicates, group by group; `dead` says which entries go for the
newest entry of a group. -/
def removeDuplicates (dead : Entry → Entry → Bool) (c : List Entry) : List Entry :=
  (groupObject (c.mergeSort newestFirst)).foldl (fun c g => c.filter fun e => !dead g e) c

/-- The removal of the template. -/
def removeDefault (c : List Entry) : List Entry :=
  c.filter fun e => !eqIgnoreCase "default".toList e.name

/-- The removal of outdated entries: for every entry older than the limit, whatever its
name and date are like. -/
def removeOld (limit : Text) (c : List Entry) : List Entry :=
  c.foldl (fun c' old =>
    if old.date < limit then c'.filter fun e => !(like old.name e.name && like old.date e.date)
    else c') c

/-- Some outdated entry takes `e` with it. -/
def aged (limit : Text) (c : List Entry) (e : Entry) : Bool :=
  c.any fun old => decide (old.date < limit) && (like old.name e.name && like old.date e.date)

/-! ## The catalogue as a store -/

/-- Names are keys up to case, and two entries are needed to add one. -/
def store : CloneStore Entry Entry Text where
  key e := toLower e.name
  itemKey i := toLower i.name
  fresh i := i
  change i e := { e with result := i.result, date := i.date }
  spare := 2
  key_fresh _ := rfl
  key_change _ _ := rfl
  change_change _ _ _ := rfl

/-- The key of the template. -/
def defaultKey : Text := toLower "default".toList

/-- The clone of the second entry is the new entry. -/
theorem addxml_eq_insert (c : List Entry) (i : Entry) : addxml c i = store.insert c i := by
  rcases c with _ | ⟨a, _ | ⟨b, c⟩⟩
  · rfl
  · rfl
  · simp [addxml, CloneStore.insert, store]

/-- One item of a run is recorded in the store. -/
theorem exportItem_eq_record (c : List Entry) (i : Entry) :
    exportItem c i = store.record c i := by
  have hhas : (c.any fun e => eqIgnoreCase e.name i.name) = true ↔
      store.Has c (store.itemKey i) := by
    simp [CloneStore.Has, store]
  have htouch : (fun e : Entry => if eqIgnoreCase e.name i.name then
      { e with result := i.result, date := i.date } else e) = store.touch i := by
    funext e
    by_cases h : toLower e.name = toLower i.name <;> simp [CloneStore.touch, store, h]
  rw [exportItem, CloneStore.record, htouch, addxml_eq_insert]
  congr 1
  exact if_congr hhas rfl rfl

/-- The items of a run make of a catalogue what the store records. -/
theorem foldl_exportItem (c is : List Entry) :
    is.foldl exportItem c = store.recorded c is := by
  rw [← CloneStore.recordAll_eq, CloneStore.recordAll]
  congr 1
  funext c i
  exact exportItem_eq_record c i

/-! ## Removal -/

theorem mem_of_mem_groupObject {c : List Entry} {g : Entry} (h : g ∈ groupObject c) : g ∈ c := by
  induction c with
  | nil => exact h
  | cons e c ih =>
    rcases List.mem_cons.mp h with rfl | h
    · exact List.mem_cons_self
    · exact List.mem_cons_of_mem e (ih (List.mem_filter.mp h).1)

/-- Every entry has a group. -/
theorem exists_mem_groupObject {c : List Entry} {e : Entry} (h : e ∈ c) :
    ∃ g ∈ groupObject c, store.key g = store.key e := by
  induction c with
  | nil => exact absurd h List.not_mem_nil
  | cons a c ih =>
    by_cases ha : store.key a = store.key e
    · exact ⟨a, List.mem_cons_self, ha⟩
    · have htail : e ∈ c := by
        rcases List.mem_cons.mp h with rfl | htail
        · exact absurd rfl ha
        · exact htail
      obtain ⟨g, hg, hkey⟩ := ih htail
      refine ⟨g, List.mem_cons_of_mem a (List.mem_filter.mpr ⟨hg, ?_⟩), hkey⟩
      rw [Bool.not_eq_true', ← Bool.not_eq_true, eqIgnoreCase_iff]
      exact fun hga => ha (hga.symm.trans hkey)

/-- The groups of the entries sorted by date. -/
def groups (c : List Entry) : List Entry := groupObject (c.mergeSort newestFirst)

theorem mem_of_mem_groups {c : List Entry} {g : Entry} (h : g ∈ groups c) : g ∈ c :=
  (List.mergeSort_perm c newestFirst).mem_iff.mp (mem_of_mem_groupObject h)

theorem exists_mem_groups {c : List Entry} {e : Entry} (h : e ∈ c) :
    ∃ g ∈ groups c, store.key g = store.key e :=
  exists_mem_groupObject ((List.mergeSort_perm c newestFirst).mem_iff.mpr h)

/-- The entries that no group removes stay. -/
theorem removeDuplicates_eq (dead : Entry → Entry → Bool) (c : List Entry) :
    removeDuplicates dead c = c.filter fun e => (groups c).all fun g => !dead g e :=
  foldl_filter (fun g e => !dead g e) (groups c) c

/-- The entries that no outdated entry takes with it stay. -/
theorem removeOld_eq (limit : Text) (c : List Entry) :
    removeOld limit c = c.filter fun e => !aged limit c e := by
  have hone : ∀ (c' : List Entry) (old : Entry), (if old.date < limit then
      c'.filter fun e => !(like old.name e.name && like old.date e.date) else c') =
      c'.filter fun e => !(decide (old.date < limit) &&
        (like old.name e.name && like old.date e.date)) := by
    intro c' old
    by_cases hold : old.date < limit
    · simp [hold]
    · simp only [hold, if_false, decide_false, Bool.false_and, Bool.not_false]
      exact (List.filter_eq_self.mpr fun _ _ => rfl).symm
  rw [removeOld]
  simp only [hone]
  rw [foldl_filter]
  refine List.filter_congr fun e _ => ?_
  rw [aged, List.not_any_eq_all_not]

theorem mem_removeDefault_iff {c : List Entry} {e : Entry} :
    e ∈ removeDefault c ↔ e ∈ c ∧ store.key e ≠ defaultKey := by
  rw [removeDefault, List.mem_filter]
  refine and_congr_right fun _ => ?_
  rw [Bool.not_eq_true', ← Bool.not_eq_true, eqIgnoreCase_iff]
  exact not_congr eq_comm

/-! ## Invariant -/

/-- What holds of every catalogue that runs make from the template: apart from the
template no two entries share a name, entries of one name share their date, and the
dates are stable texts. -/
structure Ready (c : List Entry) : Prop where
  nodup : ((store.keys c).filter fun k => k ≠ defaultKey).Nodup
  date_eq : ∀ e ∈ c, ∀ e' ∈ c, store.key e = store.key e' → e.date = e'.date
  stable : ∀ e ∈ c, Stable e.date

theorem stable_default : Stable "default".toList := stable_of_all (by decide)

theorem stable_nil : Stable [] := fun _ hc => absurd hc List.not_mem_nil

theorem ready_template : Ready template where
  nodup := by simp [CloneStore.keys, template, store, defaultKey]
  date_eq := by
    intro e he e' he' _
    simp only [template, List.mem_cons, List.not_mem_nil, or_false, or_self] at he he'
    rw [he, he']
  stable := by
    intro e he
    simp only [template, List.mem_cons, List.not_mem_nil, or_false, or_self] at he
    rw [he]
    exact stable_default

/-- Removing entries keeps the invariant. -/
theorem Ready.sublist {c c' : List Entry} (h : Ready c) (hsub : c'.Sublist c) : Ready c' where
  nodup := h.nodup.sublist ((hsub.map store.key).filter _)
  date_eq e he e' he' := h.date_eq e (hsub.subset he) e' (hsub.subset he')
  stable e he := h.stable e (hsub.subset he)

/-- Recording items with stable dates keeps the invariant. -/
theorem Ready.recorded {c is : List Entry} (h : Ready c) (his : ∀ i ∈ is, Stable i.date) :
    Ready (store.recorded c is) where
  nodup := store.nodup_keys_recorded h.nodup is
  date_eq := by
    intro e he e' he' hkey
    cases hlast : store.lastFor is (store.key e) with
    | none =>
      exact h.date_eq e (store.mem_of_mem_recorded he hlast) e'
        (store.mem_of_mem_recorded he' (hkey ▸ hlast)) hkey
    | some i =>
      obtain ⟨e₀, rfl⟩ := store.eq_change_of_mem_recorded he hlast
      obtain ⟨e₁, rfl⟩ := store.eq_change_of_mem_recorded he' (hkey ▸ hlast)
      rfl
  stable := by
    intro e he
    cases hlast : store.lastFor is (store.key e) with
    | none => exact h.stable e (store.mem_of_mem_recorded he hlast)
    | some i =>
      obtain ⟨e₀, rfl⟩ := store.eq_change_of_mem_recorded he hlast
      exact his i (store.mem_of_lastFor hlast).1

/-- An entry within the limit is not removed as outdated. -/
theorem Ready.not_aged {c c' : List Entry} (h : Ready c) (hsub : c' ⊆ c) {e : Entry} (he : e ∈ c)
    {limit : Text} (hlimit : ¬ e.date < limit) : aged limit c' e = false := by
  rw [← Bool.not_eq_true, aged, List.any_eq_true]
  intro hold
  obtain ⟨old, hmem, hdead⟩ := hold
  rw [Bool.and_eq_true, Bool.and_eq_true, decide_eq_true_eq] at hdead
  obtain ⟨hlt, -, hdate⟩ := hdead
  have heq := (like_iff_of_stable (h.stable old (hsub hmem)) (h.stable e he)).mp hdate
  exact hlimit (heq ▸ hlt)

/-! ## The entry of an item -/

/-- There is exactly one entry for the name of an item, with its result and date. -/
def Carries (c : List Entry) (i : Entry) : Prop :=
  ∃ e, store.entriesOf c (store.itemKey i) = [e] ∧ e.result = i.result ∧ e.date = i.date

/-- Every item of a run that is within the limit has its entry, with the result and the
date of the last item of its name. -/
def Complete (limit : DateTime) (is c : List Entry) : Prop :=
  ∀ k i, store.lastFor is k = some i → ¬ i.date < limit.format → Carries c i

/-- The last item of a name that can be recorded has its entry in the recorded store. -/
theorem Ready.exists_entry {c is : List Entry} (h : Ready c) {k : Text} {i : Entry}
    (hlast : store.lastFor is k = some i) (hk : k ≠ defaultKey)
    (hroom : store.Has c k ∨ 2 ≤ c.length) :
    ∃ e, store.entriesOf (store.recorded c is) k = [e] ∧ store.key e = k ∧
      e ∈ store.recorded c is ∧ e.result = i.result ∧ e.date = i.date := by
  obtain ⟨hmem, rfl⟩ := store.mem_of_lastFor hlast
  have hhas := (store.has_recorded_of_mem hmem).mpr hroom
  obtain ⟨e, he⟩ := store.entriesOf_eq_singleton (store.nodup_keys_recorded h.nodup is)
    (decide_eq_true hk) hhas
  have hin : e ∈ store.entriesOf (store.recorded c is) (store.itemKey i) :=
    he ▸ List.mem_singleton_self e
  obtain ⟨hrecorded, hkey⟩ := List.mem_filter.mp hin
  rw [decide_eq_true_eq] at hkey
  obtain ⟨e₀, rfl⟩ := store.eq_change_of_mem_recorded hrecorded (hkey ▸ hlast)
  exact ⟨_, he, hkey, hrecorded, rfl, rfl⟩

/-- Conversely, an item with an entry could be recorded. -/
theorem room_of_carries {c c' is : List Entry} {k : Text} {i : Entry}
    (hsub : c' ⊆ store.recorded c is) (hlast : store.lastFor is k = some i)
    (hcarries : Carries c' i) :
    (store.Has c k ∨ 2 ≤ c.length) ∧ ∃ e ∈ c', store.key e = k ∧ e.date = i.date := by
  obtain ⟨hmem, rfl⟩ := store.mem_of_lastFor hlast
  obtain ⟨e, he, -, hdate⟩ := hcarries
  have hin : e ∈ store.entriesOf c' (store.itemKey i) := he ▸ List.mem_singleton_self e
  obtain ⟨hc', hkey⟩ := List.mem_filter.mp hin
  rw [decide_eq_true_eq] at hkey
  exact ⟨(store.has_recorded_of_mem hmem).mp ⟨e, hsub hc', hkey⟩, e, hc', hkey, hdate⟩

end Phases

end OpsScripts.Catalogue
