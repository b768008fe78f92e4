import OpsScripts.OneC.Export

/-!
# When the export is faithful

The export owes the complete value of every line, the name of the infobase for its
identifier, and two rewritings. It pays for a session exactly when no value but the
two times has a colon, no value but the user name is that of the administrator, and
the replacement of identifiers leaves the other values and the name of the infobase
alone.
-/

namespace OpsScripts.OneC

/-! ## What is owed -/

/-- The value that a line, and the infobase summary, demand for a key. -/
def expected (bs : List Infobase) (s : Session) (j : Fin 49) : Text :=
  if j = Field.infobase then
    match bs.find? fun b => b.id.text = s.value j with
    | some b => printed b.name
    | none => printed (s.value j)
  else if j = Field.userName then administrator (printed (s.value j))
  else if j = Field.startedAt ∨ j = Field.lastActiveAt then blankT (printed (s.value j))
  else printed (s.value j)

/-- The export succeeds, with the objects that are owed, in the order of the sessions. -/
def FaithfulExport (L : Layout) (bs : Infobases) (ss : List Session) : Prop :=
  sessionsDetail (printInfobases L bs) (printSessions L ss) =
    some (ss.map fun s => object (expected bs.list s))

/-! ## Names that are identifiers -/

/-- The names of infobases, one behind the other in the summary, lead from an
identifier to a text: what is kept of each name is the next identifier. -/
inductive Trail : List Infobase → Text → Text → Prop
  | last {b : Infobase} {bs : List Infobase} {y : Text} (h : kept b.name = printed y) :
      Trail (b :: bs) b.id.text y
  | next {b : Infobase} {bs : List Infobase} {x y : Text} (h : kept b.name = printed x)
      (t : Trail bs x y) : Trail (b :: bs) b.id.text y
  | skip {b : Infobase} {bs : List Infobase} {x y : Text} (t : Trail bs x y) :
      Trail (b :: bs) x y

/-- A text that is no identifier of an infobase, or to which the names lead back. -/
def Unrenamed (bs : List Infobase) (x : Text) : Prop :=
  (∀ b ∈ bs, b.id.text ≠ x) ∨ Trail bs x x

theorem Trail.exists_mem {bs : List Infobase} {x y : Text} (t : Trail bs x y) :
    ∃ b ∈ bs, b.id.text = x := by
  induction t with
  | last => exact ⟨_, List.mem_cons_self, rfl⟩
  | next => exact ⟨_, List.mem_cons_self, rfl⟩
  | skip _ ih =>
    obtain ⟨b, hb, hx⟩ := ih
    exact ⟨b, List.mem_cons_of_mem _ hb, hx⟩

theorem trail_cons_of_ne {b : Infobase} {bs : List Infobase} {x y : Text} (h : b.id.text ≠ x) :
    Trail (b :: bs) x y ↔ Trail bs x y := by
  constructor
  · intro t
    cases t with
    | last => exact absurd rfl h
    | next => exact absurd rfl h
    | skip t => exact t
  · exact Trail.skip

theorem trail_cons_self {b : Infobase} {bs : List Infobase} {y : Text}
    (h : ∀ c ∈ bs, c.id.text ≠ b.id.text) : Trail (b :: bs) b.id.text y ↔
      kept b.name = printed y ∨ ∃ x, kept b.name = printed x ∧ Trail bs x y := by
  constructor
  · intro t
    cases t with
    | last hlast => exact Or.inl hlast
    | next hnext t => exact Or.inr ⟨_, hnext, t⟩
    | skip t =>
      obtain ⟨c, hc, hcb⟩ := t.exists_mem
      exact absurd hcb (h c hc)
  · intro ht
    obtain hlast | ⟨x, hnext, t⟩ := ht
    · exact Trail.last hlast
    · exact Trail.next hnext t

/-! ## The replacement of identifiers -/

@[simp] theorem renamed_nil (v : Text) : renamed [] v = v := rfl

theorem renamed_cons (b : Infobase) (bs : List Infobase) (v : Text) :
    renamed (b :: bs) v = renamed bs (if v = printed b.id.text then kept b.name else v) := rfl

/-- Infobases with other identifiers do not matter. -/
theorem renamed_append_of_forall_ne {bs : List Infobase} {v : Text} (cs : List Infobase)
    (h : ∀ b ∈ bs, v ≠ printed b.id.text) : renamed (bs ++ cs) v = renamed cs v := by
  induction bs with
  | nil => rfl
  | cons b bs ih =>
    rw [List.cons_append, renamed_cons, if_neg (h b List.mem_cons_self)]
    exact ih fun c hc => h c (List.mem_cons_of_mem b hc)

/-- The replacement brings in no colon. -/
theorem notMem_renamed (bs : List Infobase) {v : Text} (h : ':' ∉ v) : ':' ∉ renamed bs v := by
  induction bs generalizing v with
  | nil => exact h
  | cons b bs ih =>
    rw [renamed_cons]
    apply ih
    split
    · exact notMem_kept b.name
    · exact h

/-- A text without an identifier is reached from itself and along the trails to it. -/
theorem renamed_eq_printed_iff {bs : List Infobase} {y : Text}
    (hbs : (bs.map fun b => b.id.text).Nodup) (hy : ∀ b ∈ bs, b.id.text ≠ y) (v : Text) :
    renamed bs v = printed y ↔ v = printed y ∨ ∃ x, v = printed x ∧ Trail bs x y := by
  induction bs generalizing v with
  | nil =>
    rw [renamed_nil]
    constructor
    · exact Or.inl
    · intro h
      obtain h | ⟨x, -, t⟩ := h
      · exact h
      · cases t
  | cons b bs ih =>
    rw [List.map_cons, List.nodup_cons] at hbs
    have hb : ∀ c ∈ bs, c.id.text ≠ b.id.text := fun c hc heq =>
      hbs.1 (heq ▸ List.mem_map_of_mem hc)
    have hrest := ih hbs.2 fun c hc => hy c (List.mem_cons_of_mem b hc)
    rw [renamed_cons]
    by_cases hv : v = printed b.id.text
    · have hne : v ≠ printed y := by
        rw [hv, Ne, printed_inj]
        exact hy b List.mem_cons_self
      rw [if_pos hv, hrest, or_iff_right hne, ← trail_cons_self hb]
      constructor
      · exact fun t => ⟨_, hv, t⟩
      · rintro ⟨x, hx, t⟩
        obtain rfl : b.id.text = x := printed_injective (hv.symm.trans hx)
        exact t
    · have hskip : ∀ x, v = printed x ∧ Trail (b :: bs) x y ↔ v = printed x ∧ Trail bs x y := by
        intro x
        apply and_congr_right
        rintro rfl
        exact trail_cons_of_ne fun h => hv (congrArg printed h.symm)
      simp only [if_neg hv, hrest, hskip]

/-- A value survives the replacement exactly when it is unrenamed. -/
theorem renamed_eq_self_iff {bs : List Infobase} (hbs : (bs.map fun b => b.id.text).Nodup)
    (x : Text) : renamed bs (printed x) = printed x ↔ Unrenamed bs x := by
  induction bs with
  | nil => exact iff_of_true rfl (Or.inl fun b hb => absurd hb List.not_mem_nil)
  | cons b bs ih =>
    rw [List.map_cons, List.nodup_cons] at hbs
    by_cases hx : b.id.text = x
    · have hb : ∀ c ∈ bs, c.id.text ≠ b.id.text := fun c hc heq =>
        hbs.1 (heq ▸ List.mem_map_of_mem hc)
      have hid : ¬ ∀ c ∈ b :: bs, c.id.text ≠ x := fun h => h b List.mem_cons_self hx
      subst hx
      rw [renamed_cons, if_pos rfl, renamed_eq_printed_iff hbs.2 hb, Unrenamed, or_iff_right hid,
        trail_cons_self hb]
    · have hne : printed x ≠ printed b.id.text := fun h => hx (printed_injective h).symm
      rw [renamed_cons, if_neg hne, ih hbs.2, Unrenamed, Unrenamed, trail_cons_of_ne hx,
        List.forall_mem_cons, and_iff_right hx]

/-! ## One value -/

/-- The name that is replaced, as a value. -/
def adminName : Text := "Администратор".toList

theorem printed_adminName : " Администратор".toList = printed adminName := by decide +kernel

theorem administrator_printed (v : Text) : administrator (printed v) =
    if v = adminName then "Administrator".toList else printed v := by
  simp only [administrator, printed_adminName, printed_inj]

theorem administrator_of_ne {v : Text} (h : v ≠ adminName) :
    administrator (printed v) = printed v := by
  rw [administrator_printed, if_neg h]

theorem administrator_adminName : administrator (printed adminName) = "Administrator".toList := by
  rw [administrator_printed, if_pos rfl]

theorem notMem_administrator {v : Text} (h : ':' ∉ v) : ':' ∉ administrator v := by
  rw [administrator]
  split
  · decide
  · exact h

theorem colon_notMem_adminName : ':' ∉ adminName := by decide

/-- The English name is not replaced again. -/
theorem renamed_adminName (bs : List Infobase) :
    renamed bs (administrator (kept adminName)) = "Administrator".toList := by
  rw [kept_of_notMem colon_notMem_adminName, administrator_adminName]
  exact renamed_of_head (by decide)

/-- A name in Cyrillic letters is no identifier. -/
theorem Uuid.ne_adminName (u : Uuid) : u.text ≠ adminName := by
  intro h
  exact u.notMem (c := 'А') (by decide) (h ▸ by decide)

theorem unrenamed_adminName (bs : List Infobase) : Unrenamed bs adminName :=
  Or.inl fun b _ => b.id.ne_adminName

/-- What an ordinary value becomes has no colon. -/
theorem notMem_rewriting (bs : List Infobase) (v : Text) :
    ':' ∉ renamed bs (administrator (kept v)) :=
  notMem_renamed bs (notMem_administrator (notMem_kept v))

theorem notMem_of_rewriting_eq {bs : List Infobase} {v w : Text}
    (h : renamed bs (administrator (kept v)) = printed w) : ':' ∉ w := by
  intro hw
  apply notMem_rewriting bs v
  rw [h]
  exact List.mem_cons_of_mem ' ' hw

section Value

variable {bs : List Infobase} (hbs : (bs.map fun b => b.id.text).Nodup)
include hbs

/-- A value that is not the administrator survives exactly without a colon, unrenamed. -/
theorem rewriting_eq_iff {v : Text} (hv : v ≠ adminName) :
    renamed bs (administrator (kept v)) = printed v ↔ ':' ∉ v ∧ Unrenamed bs v := by
  constructor
  · intro h
    have hcolon : ':' ∉ v := notMem_of_rewriting_eq h
    rw [kept_of_notMem hcolon, administrator_of_ne hv] at h
    exact ⟨hcolon, (renamed_eq_self_iff hbs v).mp h⟩
  · rintro ⟨hcolon, hid⟩
    rw [kept_of_notMem hcolon, administrator_of_ne hv]
    exact (renamed_eq_self_iff hbs v).mpr hid

/-- A value of an ordinary key. -/
theorem ordinary_iff {v : Text} : renamed bs (administrator (kept v)) = printed v ↔
    ':' ∉ v ∧ v ≠ adminName ∧ Unrenamed bs v := by
  by_cases hv : v = adminName
  · subst hv
    rw [renamed_adminName]
    exact iff_of_false (by decide) fun h => h.2.1 rfl
  · rw [rewriting_eq_iff hbs hv]
    exact and_congr_right fun _ => (and_iff_right hv).symm

/-- The user name. -/
theorem userName_iff {v : Text} : renamed bs (administrator (kept v)) = administrator (printed v) ↔
    ':' ∉ v ∧ Unrenamed bs v := by
  by_cases hv : v = adminName
  · subst hv
    rw [renamed_adminName, administrator_adminName]
    exact iff_of_true rfl ⟨colon_notMem_adminName, unrenamed_adminName bs⟩
  · rw [administrator_of_ne hv, rewriting_eq_iff hbs hv]

omit hbs in
/-- The identifier of an infobase. -/
theorem infobase_iff {bs₁ bs₂ : List Infobase} {b : Infobase}
    (hbs : ((bs₁ ++ b :: bs₂).map fun b => b.id.text).Nodup) :
    renamed (bs₁ ++ b :: bs₂) (administrator (kept b.id.text)) = printed b.name ↔
      ':' ∉ b.name ∧ Unrenamed bs₂ b.name := by
  have hcolon : ':' ∉ b.id.text := b.id.notMem (by decide)
  rw [List.map_append, List.map_cons, List.nodup_append] at hbs
  obtain ⟨-, htail, hfirst⟩ := hbs
  have hne : ∀ c ∈ bs₁, printed b.id.text ≠ printed c.id.text := by
    intro c hc h
    exact hfirst _ (List.mem_map_of_mem hc) _ List.mem_cons_self (printed_injective h).symm
  rw [kept_of_notMem hcolon, administrator_of_ne b.id.ne_adminName,
    renamed_append_of_forall_ne _ hne, renamed_cons, if_pos rfl]
  have hnodup : (bs₂.map fun b => b.id.text).Nodup := (List.nodup_cons.mp htail).2
  constructor
  · intro h
    have hname : ':' ∉ b.name := by
      intro hmem
      apply notMem_renamed bs₂ (notMem_kept b.name)
      rw [h]
      exact List.mem_cons_of_mem ' ' hmem
    rw [kept_of_notMem hname, renamed_eq_self_iff hnodup] at h
    exact ⟨hname, h⟩
  · rintro ⟨hname, hid⟩
    rw [kept_of_notMem hname]
    exact (renamed_eq_self_iff hnodup b.name).mpr hid

end Value

/-! ## One session -/

/-- The sessions whose values pass the export. -/
structure Session.Clean (bs : List Infobase) (s : Session) : Prop where
  /-- No value but the two times has a colon. -/
  colon : ∀ j, j ≠ Field.startedAt → j ≠ Field.lastActiveAt → ':' ∉ s.value j
  /-- No value but the user name is the name of the administrator. -/
  admin : ∀ j, j ≠ Field.userName → s.value j ≠ adminName
  /-- No value but the infobase is an identifier, unless the names lead back to it. -/
  id : ∀ j, j ≠ Field.infobase → Unrenamed bs (s.value j)
  /-- The name of the infobase has no colon and is no identifier of a later one, unless
  the names lead back to it. -/
  name : ∀ bs₁ b bs₂, bs = bs₁ ++ b :: bs₂ → b.id.text = s.value Field.infobase →
    ':' ∉ b.name ∧ Unrenamed bs₂ b.name

/-- A time is neither the administrator nor an identifier. -/
theorem iso_clean (m : Moment) (bs : List Infobase) :
    m.iso ≠ adminName ∧ Unrenamed bs m.iso := by
  have hcolon : ':' ∈ m.iso := List.mem_append_right _ List.mem_cons_self
  constructor
  · intro h
    exact colon_notMem_adminName (h ▸ hcolon)
  · apply Or.inl
    intro b _ h
    exact b.id.notMem (c := ':') (by decide) (h ▸ hcolon)

/-- So are the two times of a session. -/
theorem time_clean (bs : List Infobase) (s : Session) {j : Fin 49}
    (hj : j = Field.startedAt ∨ j = Field.lastActiveAt) :
    s.value j ≠ adminName ∧ Unrenamed bs (s.value j) := by
  obtain ⟨m, hm⟩ : ∃ m : Moment, s.value j = m.iso := by
    obtain rfl | rfl := hj
    · exact s.startedAt
    · exact s.lastActiveAt
  rw [hm]
  exact iso_clean m bs

/-- The two times are always right. -/
theorem delivered_time (bs : List Infobase) (s : Session) {j : Fin 49}
    (hj : j = Field.startedAt ∨ j = Field.lastActiveAt) :
    delivered bs s j = expected bs s j := by
  have h2 : j ≠ Field.infobase := by
    rintro rfl
    exact absurd hj (by decide)
  have h5 : j ≠ Field.userName := by
    rintro rfl
    exact absurd hj (by decide)
  rw [delivered, expected, if_pos hj, if_neg h2, if_neg h5, if_pos hj]

section Session

variable {bs : List Infobase} (hbs : (bs.map fun b => b.id.text).Nodup) (s : Session)
include hbs

/-- The key `infobase`, with an identifier of the summary. -/
theorem delivered_known_infobase_iff {bs₁ bs₂ : List Infobase} {b : Infobase}
    (hsplit : bs = bs₁ ++ b :: bs₂) (hvalue : b.id.text = s.value Field.infobase) :
    delivered bs s Field.infobase = expected bs s Field.infobase ↔
      ':' ∉ b.name ∧ Unrenamed bs₂ b.name := by
  subst hsplit
  have hfirst : bs₁.find? (fun c => c.id.text = s.value Field.infobase) = none := by
    rw [List.map_append, List.map_cons, List.nodup_append] at hbs
    rw [List.find?_eq_none]
    intro c hc h
    have hcb : c.id.text = b.id.text := (of_decide_eq_true h).trans hvalue.symm
    exact hbs.2.2 _ (List.mem_map_of_mem hc) _ List.mem_cons_self hcb
  have hfind : (bs₁ ++ b :: bs₂).find? (fun c => c.id.text = s.value Field.infobase) = some b := by
    rw [List.find?_append, hfirst, Option.none_or]
    exact List.find?_cons_of_pos (decide_eq_true hvalue)
  rw [delivered, if_neg (by decide), expected, if_pos rfl, hfind, ← hvalue]
  exact infobase_iff hbs

/-- The key `infobase`, with another value. -/
theorem delivered_unknown_infobase_iff (hnone : ∀ b ∈ bs, b.id.text ≠ s.value Field.infobase) :
    delivered bs s Field.infobase = expected bs s Field.infobase ↔
      ':' ∉ s.value Field.infobase ∧ s.value Field.infobase ≠ adminName := by
  have hfind : bs.find? (fun b => b.id.text = s.value Field.infobase) = none := by
    rw [List.find?_eq_none]
    intro b hb h
    exact hnone b hb (of_decide_eq_true h)
  have hid : Unrenamed bs (s.value Field.infobase) := Or.inl hnone
  rw [delivered, if_neg (by decide), expected, if_pos rfl, hfind]
  exact (ordinary_iff hbs).trans (and_congr_right fun _ => and_iff_left hid)

/-- The key `infobase`. -/
theorem delivered_infobase_iff : delivered bs s Field.infobase = expected bs s Field.infobase ↔
    ':' ∉ s.value Field.infobase ∧ s.value Field.infobase ≠ adminName ∧
      ∀ bs₁ b bs₂, bs = bs₁ ++ b :: bs₂ →
        b.id.text = s.value Field.infobase → ':' ∉ b.name ∧ Unrenamed bs₂ b.name := by
  by_cases hid : ∃ b ∈ bs, b.id.text = s.value Field.infobase
  · obtain ⟨b, hb, hvalue⟩ := hid
    obtain ⟨bs₁, bs₂, hsplit⟩ := List.append_of_mem hb
    constructor
    · intro h
      refine ⟨hvalue ▸ b.id.notMem (by decide), hvalue ▸ b.id.ne_adminName, ?_⟩
      intro cs₁ c cs₂ hcs hc
      exact (delivered_known_infobase_iff hbs s hcs hc).mp h
    · intro h
      exact (delivered_known_infobase_iff hbs s hsplit hvalue).mpr (h.2.2 bs₁ b bs₂ hsplit hvalue)
  · have hnone : ∀ b ∈ bs, b.id.text ≠ s.value Field.infobase := fun b hb h => hid ⟨b, hb, h⟩
    rw [delivered_unknown_infobase_iff hbs s hnone]
    apply and_congr_right
    intro _
    rw [iff_self_and]
    intro _ bs₁ b bs₂ hsplit hb
    exact absurd hb (hnone b (hsplit ▸ List.mem_append_right bs₁ List.mem_cons_self))

/-- The key `user-name`. -/
theorem delivered_userName_iff : delivered bs s Field.userName = expected bs s Field.userName ↔
    ':' ∉ s.value Field.userName ∧ Unrenamed bs (s.value Field.userName) := by
  rw [delivered, expected, if_neg (by decide), if_neg (by decide), if_pos rfl]
  exact userName_iff hbs

/-- The other keys. -/
theorem delivered_ordinary_iff {j : Fin 49} (h2 : j ≠ Field.infobase) (h5 : j ≠ Field.userName)
    (hj : ¬ (j = Field.startedAt ∨ j = Field.lastActiveAt)) :
    delivered bs s j = expected bs s j ↔
      ':' ∉ s.value j ∧ s.value j ≠ adminName ∧ Unrenamed bs (s.value j) := by
  rw [delivered, expected, if_neg hj, if_neg h2, if_neg h5, if_neg hj]
  exact ordinary_iff hbs

/-- An object that is right comes from a clean session. -/
theorem Session.Clean.of_delivered (h : delivered bs s = expected bs s) : s.Clean bs := by
  have hinfobase := (delivered_infobase_iff hbs s).mp (congrFun h Field.infobase)
  have huser := (delivered_userName_iff hbs s).mp (congrFun h Field.userName)
  have hother : ∀ j, j ≠ Field.infobase → j ≠ Field.userName →
      ¬ (j = Field.startedAt ∨ j = Field.lastActiveAt) →
        ':' ∉ s.value j ∧ s.value j ≠ adminName ∧ Unrenamed bs (s.value j) := fun j h2 h5 hj =>
    (delivered_ordinary_iff hbs s h2 h5 hj).mp (congrFun h j)
  refine ⟨?_, ?_, ?_, hinfobase.2.2⟩
  · intro j h9 h10
    by_cases h2 : j = Field.infobase
    · exact h2 ▸ hinfobase.1
    · by_cases h5 : j = Field.userName
      · exact h5 ▸ huser.1
      · exact (hother j h2 h5 (not_or.mpr ⟨h9, h10⟩)).1
  · intro j h5
    by_cases h2 : j = Field.infobase
    · exact h2 ▸ hinfobase.2.1
    · by_cases hj : j = Field.startedAt ∨ j = Field.lastActiveAt
      · exact (time_clean bs s hj).1
      · exact (hother j h2 h5 hj).2.1
  · intro j h2
    by_cases h5 : j = Field.userName
    · exact h5 ▸ huser.2
    · by_cases hj : j = Field.startedAt ∨ j = Field.lastActiveAt
      · exact (time_clean bs s hj).2
      · exact (hother j h2 h5 hj).2.2

/-- A clean session gives the object that is owed. -/
theorem Session.Clean.delivered_eq (h : s.Clean bs) : delivered bs s = expected bs s := by
  ext1 j
  by_cases hj : j = Field.startedAt ∨ j = Field.lastActiveAt
  · exact delivered_time bs s hj
  · have hcolon := h.colon j (fun h9 => hj (Or.inl h9)) fun h10 => hj (Or.inr h10)
    by_cases h2 : j = Field.infobase
    · subst h2
      exact (delivered_infobase_iff hbs s).mpr ⟨hcolon, h.admin Field.infobase (by decide), h.name⟩
    · by_cases h5 : j = Field.userName
      · subst h5
        exact (delivered_userName_iff hbs s).mpr ⟨hcolon, h.id Field.userName (by decide)⟩
      · exact (delivered_ordinary_iff hbs s h2 h5 hj).mpr ⟨hcolon, h.admin j h5, h.id j h2⟩

end Session

/-! ## The listing -/

/-- An export is right exactly when it is right for every session. -/
theorem faithfulExport_iff_forall (L : Layout) (bs : Infobases) (ss : List Session) :
    FaithfulExport L bs ss ↔ ∀ s ∈ ss, delivered bs.list s = expected bs.list s := by
  rw [FaithfulExport, sessionsDetail_print, Option.some_inj, List.map_inj_left]
  exact forall₂_congr fun s _ => object_injective.eq_iff

/-- The export of a listing is faithful exactly when every session of it is clean. -/
theorem faithfulExport_iff (L : Layout) (bs : Infobases) (ss : List Session) :
    FaithfulExport L bs ss ↔ ∀ s ∈ ss, s.Clean bs.list := by
  rw [faithfulExport_iff_forall]
  exact forall₂_congr fun s _ =>
    ⟨Session.Clean.of_delivered bs.distinct s, fun h => h.delivered_eq bs.distinct s⟩

/-! ## A session over IPv6 -/

/-- A key with its padding. -/
def pad (width : Nat) (key : Text) : Text := key ++ List.replicate (width - key.length) ' '

theorem notMem_pad {c : Char} {key : Text} (width : Nat) (hc : c ≠ ' ') (h : c ∉ key) :
    c ∉ pad width key := by
  rw [pad, List.mem_append, not_or]
  exact ⟨h, fun hpad => hc (List.eq_of_mem_replicate hpad)⟩

theorem oneLine_pad {key : Text} (width : Nat) (h : OneLine key) : OneLine (pad width key) :=
  ⟨notMem_pad width (by decide) h.1, notMem_pad width (by decide) h.2⟩

theorem fieldNames_plain :
    ∀ j : Fin 49, OneLine (fieldNames.get j).toList ∧ ':' ∉ (fieldNames.get j).toList := by
  decide +kernel

/-- The layout of `rac`: keys padded to the longest one, a blank line between infobases. -/
def racLayout : Layout where
  key j := pad 33 (fieldNames.get j).toList
  key_line j := oneLine_pad 33 (fieldNames_plain j).1
  key_colon j := notMem_pad 33 (by decide) (fieldNames_plain j).2
  gap := 1

/-- Noon of the first day of 2024. -/
def noon : Moment := Moment.ofNat (DateTime.ofNat 2024 1 1 12 0) 0

/-- A session of a client with an IPv6 address. -/
def ipv6Session : Session where
  value j :=
    if j = Field.startedAt ∨ j = Field.lastActiveAt then noon.iso
    else if j = Field.clientIp then "fe80::1".toList
    else "0".toList
  line := by decide +kernel
  startedAt := ⟨noon, rfl⟩
  lastActiveAt := ⟨noon, rfl⟩

/-- The address is cut at its last colon. -/
theorem ipv6Session_not_faithful :
    ¬ FaithfulExport racLayout ⟨[], List.nodup_nil⟩ [ipv6Session] := by
  rw [faithfulExport_iff_forall]
  intro h
  have hip := congrFun (h ipv6Session List.mem_cons_self) Field.clientIp
  exact absurd hip (by decide +kernel)

end OpsScripts.OneC
