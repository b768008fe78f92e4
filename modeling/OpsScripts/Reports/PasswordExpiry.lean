import OpsScripts.Core.DateTime
import OpsScripts.Core.Replacement

/-!
# `user_password_expire.ps1`

The users whose password expires in ten days or in one get a mail. Its body is made in the
variable of the template itself, so the names of the cells are there for the first user only: the
mails behind it show the account, the date and the days of the first one.
-/

namespace OpsScripts.Reports

/-! ## Days -/

/-- `ToString("yyyy-MM-dd")` of a day, counted from the first one of the year 1. The years of the
calculation begin in March, so that the leap day is the last one. -/
def formatDay (day : Nat) : Text :=
  let shifted := day + 306
  let era := shifted / 146097
  let ofEra := shifted % 146097
  let yearOfEra := (ofEra - ofEra / 1460 + ofEra / 36524 - ofEra / 146096) / 365
  let ofYear := ofEra - (365 * yearOfEra + yearOfEra / 4 - yearOfEra / 100)
  let shiftedMonth := (5 * ofYear + 2) / 153
  let month := if shiftedMonth < 10 then shiftedMonth + 3 else shiftedMonth - 9
  let year := era * 400 + yearOfEra + if month ≤ 2 then 1 else 0
  DateTime.two (year / 100) ++ (DateTime.two (year % 100) ++ '-' :: (DateTime.two month ++ '-' ::
    DateTime.two (ofYear - (153 * shiftedMonth + 2) / 5 + 1)))

/-- `AddDays` back in time; there is no day before the first one. -/
def addDays (day back : Nat) : Option Nat := if back ≤ day then some (day - back) else none

/-! ## The template -/

/-- The lines of a part of the here-string, each in pieces. -/
def htmlLines (ls : List (List String)) : Text :=
  "\r\n".toList.intercalate (ls.map fun pieces => pieces.flatMap String.toList)

/-- Up to the date of the report. -/
def heading : Text := htmlLines
  [["<table ", "style=\"width: 68%\" ", "style=\"border-collapse: ", "collapse; border: ",
      "1px solid #008080;\">"],
    [" <tr>"],
    ["    <td colspan=\"2\" ", "bgcolor=\"#008080\" ", "style=\"color: #FFFFFF; ",
      "font-size: large; ", "height: 35px;\"> "],
    ["        Expire ", "password for ", "astra.local Report on"]]

/-- Up to the account. -/
def accountRow : Text := htmlLines
  [[" "], ["    </td>"], [" </tr>"],
    [" <tr style=\"", "border-bottom-style: ", "solid; ", "border-bottom-width: ", "1px; ",
      "padding-bottom: 1px\">"],
    ["    <td style=\"", "width: 201px; ", "height: 35px\"> ", "SamAccountName</td>"],
    ["    <td style=\"", "text-align: center; ", "height: 35px; ", "width: 233px;\">"],
    ["    <b"]]

/-- The end of a row and the beginning of the next one, up to its value. -/
def nextRow (name : String) : Text := htmlLines
  [["/b></td>"], [" </tr>"],
    ["  <tr style=\"", "height: 39px; ", "border: 1px solid ", "#008080\">"],
    ["  <td style=\"", "width: 201px; ", "height: 39px\">  ", name, "</td>"],
    [" <td style=\"", "text-align: center; ", "height: 39px; ", "width: 233px;\">"],
    ["  <b"]]

/-- Up to the date on which the password expires. -/
def dateRow : Text := nextRow "Date of expire"

/-- Up to the number of days. -/
def daysRow : Text := nextRow "Days left until expiration"

/-- Behind the number of days. -/
def footing : Text := htmlLines [["/b></td>"], [" </tr>"], ["</table>"]]

/-- The template with its four cells filled. -/
def cells (reportDate account expiry days : Text) : Text :=
  heading ++ ' ' :: (reportDate ++ ' ' :: (accountRow ++ '>' :: (account ++ '<' ::
    (dateRow ++ '>' :: (expiry ++ '<' :: (daysRow ++ '>' :: (days ++ '<' :: footing)))))))

/-- `$EmailBody` as the script begins. -/
def EmailBody : Text :=
  cells "VarReportDate".toList "VarApproved".toList "VarRejected".toList "ElapsedDays".toList

/-! ## The loop -/

/-- A user of `Get-ADUser`; the address and the date of expiry may be missing. -/
structure User where
  SamAccountName : Text
  mail : Option Text
  ExpiryDate : Option Nat

/-- What a user is told. -/
structure Notice where
  expiry : Text
  days : Nat

/-- The two conditions of the loop; an error in one leaves the statement. -/
def notice (date : Text) (user : User) : Option Notice := do
  let day ← user.ExpiryDate
  let early ← addDays day 10
  if formatDay early = date then some ⟨formatDay day, 10⟩
  else
    let late ← addDays day 1
    if formatDay late = date then some ⟨formatDay day, 1⟩ else none

/-- A call of `Send-MailMessage`. -/
structure Mail where
  To : Text
  Subject : Text
  Body : Text
  deriving DecidableEq

/-- `$Subject`. -/
def subjectOf (date : Text) : Text :=
  "Expire password for astra.local Report on ".toList ++ date

/-- The three replacements in `$EmailBody`. -/
def fill (body account expiry days : Text) : Text :=
  replace "ElapsedDays".toList days
    (replace "VarRejected".toList expiry (replace "VarApproved".toList account body))

/-- The variable of the template and the mails so far. -/
structure Loop where
  EmailBody : Text
  sent : List Mail

/-- `"$mailtosend"`; a missing address becomes an empty text. -/
def User.To (user : User) : Text := user.mail.getD []

/-- A user gets a notice. -/
def Loop.send (date : Text) (st : Loop) (p : User × Notice) : Loop :=
  let body := fill st.EmailBody p.1.SamAccountName p.2.expiry (decimal p.2.days)
  ⟨body, st.sent ++ [⟨p.1.To, subjectOf date, body⟩]⟩

/-- One pass of the loop. -/
def Loop.user (date : Text) (st : Loop) (user : User) : Loop :=
  match notice date user with
  | none => st
  | some n => st.send date (user, n)

/-- The mails of the script on a day. -/
def mails (today : Nat) (users : List User) : List Mail :=
  let date := formatDay today
  (users.foldl (Loop.user date)
    ⟨replace "VarReportDate".toList date EmailBody, []⟩).sent

/-- The users that are told something on a day. -/
def due (date : Text) (users : List User) : List (User × Notice) :=
  users.filterMap fun user => (notice date user).map fun n => (user, n)

/-- The mail with the data of its user. -/
def ownMail (date : Text) (p : User × Notice) : Mail :=
  ⟨p.1.To, subjectOf date, cells date p.1.SamAccountName p.2.expiry (decimal p.2.days)⟩

/-- Every user that is due gets a mail with the own data. -/
def Personal (today : Nat) (users : List User) : Prop :=
  mails today users = (due (formatDay today) users).map (ownMail (formatDay today))

/-- The users that `Get-ADUser` finds: the names of accounts differ, and the filter asks for
`*_adm`. -/
structure Found [Culture] where
  users : List User
  nodup : (users.map User.SamAccountName).Nodup
  filter : ∀ user ∈ users, ∃ name suffix, user.SamAccountName = name ++ '_' :: suffix ∧
    eqIgnoreCase suffix "adm".toList = true

/-! ## Dates -/

/-- The text of a day has no letters. -/
theorem notMem_formatDay (day : Nat) {c : Char} (hc : c ∉ "0123456789-".toList) :
    c ∉ formatDay day := by
  have hnumber : ∀ n, c ∉ DateTime.two n := fun n =>
    DateTime.notMem_two n fun h => hc (List.mem_append_left _ h)
  have hdash : c ≠ '-' := fun h => hc (h ▸ by decide)
  simp only [formatDay, List.mem_append, List.mem_cons, not_or]
  exact ⟨hnumber _, hnumber _, hdash, hnumber _, hdash, hnumber _⟩

theorem length_formatDay (day : Nat) : (formatDay day).length = 10 := rfl

/-- The text of the notice: a day, and ten days or one. -/
theorem notice_eq_some {date : Text} {user : User} {n : Notice} (h : notice date user = some n) :
    ∃ day, n.expiry = formatDay day ∧ (n.days = 10 ∨ n.days = 1) := by
  obtain ⟨day, -, h⟩ := Option.bind_eq_some_iff.mp h
  obtain ⟨early, -, h⟩ := Option.bind_eq_some_iff.mp h
  split_ifs at h
  · obtain rfl := Option.some.inj h
    exact ⟨day, rfl, Or.inl rfl⟩
  · obtain ⟨late, -, h⟩ := Option.bind_eq_some_iff.mp h
    split_ifs at h
    obtain rfl := Option.some.inj h
    exact ⟨day, rfl, Or.inr rfl⟩

/-! ## Replacements in the template -/

/-- The names of the cells. -/
def placeholders : List Text :=
  ["VarReportDate".toList, "VarApproved".toList, "VarRejected".toList, "ElapsedDays".toList]

/-- The parts of the template that stay. -/
def htmlParts : List Text := [heading, accountRow, dateRow, daysRow, footing]

/-- No name of a cell and no underscore stands in the parts that stay. -/
theorem htmlParts_spec : ∀ t ∈ htmlParts, '_' ∉ t ∧ ∀ old ∈ placeholders,
    contains old t = false := by
  decide +kernel

/-- A name of a cell is a word of letters. -/
theorem placeholder_spec : ∀ old ∈ placeholders, (old ≠ [] ∧ 'a' ∈ old ∧ '_' ∉ old) ∧
    ' ' ∉ old ∧ '>' ∉ old ∧ '<' ∉ old := by
  decide +kernel

/-- A name of a cell is replaced in the cells only. -/
theorem replace_cells {old : Text} (h : old ∈ placeholders)
    (new reportDate account expiry days : Text) :
    replace old new (cells reportDate account expiry days) =
      cells (replace old new reportDate) (replace old new account) (replace old new expiry)
        (replace old new days) := by
  obtain ⟨⟨hne, -, -⟩, hblank, hright, hleft⟩ := placeholder_spec old h
  have hparts : ∀ t ∈ htmlParts, replace old new t = t :=
    fun t ht => replace_eq_self hne new ((htmlParts_spec t ht).2 old h)
  rw [cells, replace_append_cons hne _ _ _ hblank, replace_append_cons hne _ _ _ hblank,
    replace_append_cons hne _ _ _ hright, replace_append_cons hne _ _ _ hleft,
    replace_append_cons hne _ _ _ hright, replace_append_cons hne _ _ _ hleft,
    replace_append_cons hne _ _ _ hright, replace_append_cons hne _ _ _ hleft,
    hparts heading (by simp [htmlParts]), hparts accountRow (by simp [htmlParts]),
    hparts dateRow (by simp [htmlParts]), hparts daysRow (by simp [htmlParts]),
    hparts footing (by simp [htmlParts]), cells]

/-- Dates and numbers stay. -/
theorem replace_of_notMem {old : Text} (h : old ∈ placeholders) (new : Text) {t : Text}
    (ht : 'a' ∉ t) : replace old new t = t :=
  replace_eq_self (placeholder_spec old h).1.1 new
    (contains_eq_false_of_mem (placeholder_spec old h).1.2.1 ht)

theorem placeholder_mem : "VarReportDate".toList ∈ placeholders ∧
    "VarApproved".toList ∈ placeholders ∧ "VarRejected".toList ∈ placeholders ∧
      "ElapsedDays".toList ∈ placeholders := by
  simp [placeholders]

/-- Once the cells are filled, the replacements go on in the account only. -/
theorem fill_cells {date expiry days : Text} (N account expiry' days' : Text)
    (hdate : 'a' ∉ date) (hexpiry : 'a' ∉ expiry) (hdays : 'a' ∉ days) :
    fill (cells date N expiry days) account expiry' days' =
      cells date (fill N account expiry' days') expiry days := by
  obtain ⟨-, happroved, hrejected, helapsed⟩ := placeholder_mem
  simp only [fill, replace_cells happroved, replace_cells hrejected, replace_cells helapsed,
    replace_of_notMem happroved _ hdate, replace_of_notMem hrejected _ hdate,
    replace_of_notMem helapsed _ hdate, replace_of_notMem happroved _ hexpiry,
    replace_of_notMem hrejected _ hexpiry, replace_of_notMem helapsed _ hexpiry,
    replace_of_notMem happroved _ hdays, replace_of_notMem hrejected _ hdays,
    replace_of_notMem helapsed _ hdays]

/-- The template with the date of the report. -/
theorem replace_EmailBody {date : Text} : replace "VarReportDate".toList date EmailBody =
    cells date "VarApproved".toList "VarRejected".toList "ElapsedDays".toList := by
  obtain ⟨hreport, -⟩ := placeholder_mem
  have hother : ∀ t ∈ ["VarApproved".toList, "VarRejected".toList, "ElapsedDays".toList],
      contains "VarReportDate".toList t = false := by decide +kernel
  have hne := (placeholder_spec _ hreport).1.1
  rw [EmailBody, replace_cells hreport, replace_self hne,
    replace_eq_self hne _ (hother _ (by simp)), replace_eq_self hne _ (hother _ (by simp)),
    replace_eq_self hne _ (hother _ (by simp))]

/-- The first user fills all cells, and the name of the account takes part in the replacements
behind its own. -/
theorem fill_EmailBody {date expiry : Text} (account days : Text) (hdate : 'a' ∉ date)
    (hexpiry : 'a' ∉ expiry) :
    fill (cells date "VarApproved".toList "VarRejected".toList "ElapsedDays".toList)
        account expiry days =
      cells date (replace "ElapsedDays".toList days
        (replace "VarRejected".toList expiry account)) expiry days := by
  obtain ⟨-, happroved, hrejected, helapsed⟩ := placeholder_mem
  have hother : ∀ t ∈ ["VarRejected".toList, "ElapsedDays".toList],
      contains "VarApproved".toList t = false := by decide +kernel
  have helapsed' : contains "VarRejected".toList "ElapsedDays".toList = false := by
    decide +kernel
  have happroved_ne := (placeholder_spec _ happroved).1.1
  have hrejected_ne := (placeholder_spec _ hrejected).1.1
  have helapsed_ne := (placeholder_spec _ helapsed).1.1
  rw [fill, replace_cells happroved, replace_of_notMem happroved _ hdate,
    replace_self happroved_ne, replace_eq_self happroved_ne _ (hother _ (by simp)),
    replace_eq_self happroved_ne _ (hother _ (by simp)), replace_cells hrejected,
    replace_of_notMem hrejected _ hdate, replace_self hrejected_ne,
    replace_eq_self hrejected_ne _ helapsed', replace_cells helapsed,
    replace_of_notMem helapsed _ hdate, replace_of_notMem helapsed _ hexpiry,
    replace_self helapsed_ne]

/-! ## Bodies that are equal -/

/-- The template up to the number of days. -/
def upToDays (reportDate account expiry : Text) : Text :=
  heading ++ ' ' :: (reportDate ++ ' ' :: (accountRow ++ '>' :: (account ++ '<' ::
    (dateRow ++ '>' :: (expiry ++ '<' :: (daysRow ++ ['>']))))))

theorem cells_eq_upToDays (reportDate account expiry days : Text) :
    cells reportDate account expiry days =
      upToDays reportDate account expiry ++ days ++ '<' :: footing := by
  simp only [cells, upToDays, List.append_assoc, List.cons_append, List.nil_append]

/-- Dates of one length leave the account in its place. -/
theorem upToDays_inj {date N N' expiry expiry' : Text} (hlength : expiry.length = expiry'.length)
    (h : upToDays date N expiry = upToDays date N' expiry') : N = N' := by
  have htotal := congrArg List.length h
  simp only [upToDays, List.length_append, List.length_cons, hlength] at htotal
  rw [upToDays, upToDays, List.append_cancel_left_eq, List.cons_inj_right,
    List.append_cancel_left_eq, List.cons_inj_right, List.append_cancel_left_eq,
    List.cons_inj_right] at h
  exact (List.append_inj h (by omega)).1

theorem cells_account_inj {date N N' expiry days : Text}
    (h : cells date N expiry days = cells date N' expiry days) : N = N' := by
  rw [cells_eq_upToDays, cells_eq_upToDays, List.append_left_inj, List.append_left_inj] at h
  exact upToDays_inj rfl h

/-- The two numbers of days as texts. -/
theorem decimal_days {n : Nat} (h : n = 10 ∨ n = 1) :
    (n = 10 ∧ decimal n = ['1', '0']) ∨ (n = 1 ∧ decimal n = ['1']) := by
  rcases h with rfl | rfl
  · exact Or.inl ⟨rfl, by simp [decimal, digit]⟩
  · exact Or.inr ⟨rfl, by simp [decimal, digit]⟩

/-- Bodies of different notices are equal only for equal accounts: the numbers of days have
different last digits. -/
theorem account_eq_of_cells_eq {date N N' expiry expiry' : Text} {m n : Nat}
    (hm : m = 10 ∨ m = 1) (hn : n = 10 ∨ n = 1) (hlength : expiry.length = expiry'.length)
    (h : cells date N expiry (decimal m) = cells date N' expiry' (decimal n)) : N = N' := by
  rw [cells_eq_upToDays, cells_eq_upToDays, List.append_left_inj] at h
  have hlast := congrArg List.getLast? h
  have hdays : m = n := by
    rcases decimal_days hm with ⟨rfl, hm⟩ | ⟨rfl, hm⟩ <;>
      rcases decimal_days hn with ⟨rfl, hn⟩ | ⟨rfl, hn⟩
    · rfl
    · simp [hm, hn] at hlast
    · simp [hm, hn] at hlast
    · rfl
  rw [hdays, List.append_left_inj] at h
  exact upToDays_inj hlength h

/-- Underscores stand in the account only. -/
theorem count_cells {date N expiry days : Text} (hdate : '_' ∉ date) (hexpiry : '_' ∉ expiry)
    (hdays : '_' ∉ days) : (cells date N expiry days).count '_' = N.count '_' := by
  have hzero : ∀ t ∈ htmlParts, t.count '_' = 0 :=
    fun t ht => List.count_eq_zero_of_not_mem (htmlParts_spec t ht).1
  simp only [cells, List.count_append, List.count_cons, hzero heading (by simp [htmlParts]),
    hzero accountRow (by simp [htmlParts]), hzero dateRow (by simp [htmlParts]),
    hzero daysRow (by simp [htmlParts]), hzero footing (by simp [htmlParts]),
    List.count_eq_zero_of_not_mem hdate, List.count_eq_zero_of_not_mem hexpiry,
    List.count_eq_zero_of_not_mem hdays]
  simp

/-! ## The mails -/

/-- The loop passes over the users that are not due. -/
theorem mails_eq (today : Nat) (users : List User) :
    mails today users = ((due (formatDay today) users).foldl (Loop.send (formatDay today))
      ⟨replace "VarReportDate".toList (formatDay today) EmailBody, []⟩).sent := by
  have hloop : ∀ st : Loop, users.foldl (Loop.user (formatDay today)) st =
      (due (formatDay today) users).foldl (Loop.send (formatDay today)) st := by
    induction users with
    | nil => exact fun _ => rfl
    | cons user users ih =>
      intro st
      have hdue : due (formatDay today) (user :: users) =
          ((notice (formatDay today) user).map fun n => (user, n)).toList ++
            due (formatDay today) users := by
        rw [due, List.filterMap_cons]
        cases notice (formatDay today) user <;> rfl
      rw [List.foldl_cons, ih, hdue, Loop.user]
      cases notice (formatDay today) user <;> rfl
  rw [mails, hloop]

/-- The mails that were sent stay sent. -/
theorem prefix_foldl_send (date : Text) (ps : List (User × Notice)) (st : Loop) :
    st.sent <+: (ps.foldl (Loop.send date) st).sent := by
  induction ps generalizing st with
  | nil => exact List.prefix_rfl
  | cons p ps ih => exact (List.prefix_append _ _).trans (ih (st.send date p))

/-- A user that is due is one of the users, with the notice of the day. -/
theorem mem_due {date : Text} {users : List User} {p : User × Notice} (h : p ∈ due date users) :
    p.1 ∈ users ∧ notice date p.1 = some p.2 := by
  obtain ⟨user, huser, hp⟩ := List.mem_filterMap.mp h
  obtain ⟨n, hn, rfl⟩ := Option.map_eq_some_iff.mp hp
  exact ⟨huser, hn⟩

/-- The texts of a notice have no letters and no underscores. -/
theorem notMem_notice {date : Text} {p : User × Notice} (h : notice date p.1 = some p.2) {c : Char}
    (hc : c ∉ "0123456789-".toList) : c ∉ p.2.expiry ∧ c ∉ decimal p.2.days := by
  obtain ⟨day, hexpiry, hdays⟩ := notice_eq_some h
  refine ⟨hexpiry ▸ notMem_formatDay day hc, ?_⟩
  have hall : ∀ d ∈ ['1', '0'], d ∈ "0123456789-".toList := by decide
  rcases decimal_days hdays with ⟨-, hdays⟩ | ⟨-, hdays⟩
  · rw [hdays]
    exact fun hmem => hc (hall c hmem)
  · rw [hdays]
    exact fun hmem => hc (hall c (List.mem_singleton.mp hmem ▸ List.mem_cons_self))

/-- The body of the first mail. -/
theorem sent_first {date : Text} {p : User × Notice} (hp : notice date p.1 = some p.2)
    (hdate : 'a' ∉ date) :
    (Loop.send date ⟨replace "VarReportDate".toList date EmailBody, []⟩ p) =
      let body := cells date (replace "ElapsedDays".toList (decimal p.2.days)
        (replace "VarRejected".toList p.2.expiry p.1.SamAccountName)) p.2.expiry
          (decimal p.2.days)
      ⟨body, [⟨p.1.To, subjectOf date, body⟩]⟩ := by
  have hexpiry := (notMem_notice hp (c := 'a') (by decide)).1
  rw [Loop.send, replace_EmailBody, fill_EmailBody _ _ hdate hexpiry]
  rfl

/-- An account that has no name of a cell behind its own in it. -/
def PlainAccount (account : Text) : Prop :=
  contains "VarRejected".toList account = false ∧ contains "ElapsedDays".toList account = false

/-- The account stays as it is exactly if it is plain. -/
theorem replace_account_iff {p : User × Notice} {date : Text} (hp : notice date p.1 = some p.2) :
    replace "ElapsedDays".toList (decimal p.2.days)
        (replace "VarRejected".toList p.2.expiry p.1.SamAccountName) = p.1.SamAccountName ↔
      PlainAccount p.1.SamAccountName := by
  obtain ⟨-, -, hrejected, helapsed⟩ := placeholder_mem
  have hrejected_ne := (placeholder_spec _ hrejected).1.1
  have helapsed_ne := (placeholder_spec _ helapsed).1.1
  obtain ⟨day, hexpiry, hdays⟩ := notice_eq_some hp
  have hexpiry_lt : p.2.expiry.length < "VarRejected".toList.length := by
    rw [hexpiry, length_formatDay]
    decide
  have hdays_lt : (decimal p.2.days).length < "ElapsedDays".toList.length := by
    rcases decimal_days hdays with ⟨-, hdays⟩ | ⟨-, hdays⟩ <;> rw [hdays] <;> decide
  obtain ⟨hle, hlt⟩ := length_replace hrejected_ne hexpiry_lt p.1.SamAccountName
  obtain ⟨hle', hlt'⟩ := length_replace helapsed_ne hdays_lt
    (replace "VarRejected".toList p.2.expiry p.1.SamAccountName)
  constructor
  · intro h
    have hlength := congrArg List.length h
    have hnone : contains "VarRejected".toList p.1.SamAccountName = false := by
      rw [← Bool.not_eq_true]
      intro hin
      have hshorter := hlt hin
      omega
    rw [replace_eq_self hrejected_ne _ hnone] at hlength hlt'
    refine ⟨hnone, ?_⟩
    rw [← Bool.not_eq_true]
    intro hin
    have hshorter := hlt' hin
    omega
  · rintro ⟨hnone, hnone'⟩
    rw [replace_eq_self hrejected_ne _ hnone, replace_eq_self helapsed_ne _ hnone']

/-- A second user never gets a mail with the own account. -/
theorem fill_ne_ownMail {date : Text} {p p' : User × Notice} (hp : notice date p.1 = some p.2)
    (hp' : notice date p'.1 = some p'.2) (hdate : 'a' ∉ date) (hdate' : '_' ∉ date)
    (hplain : PlainAccount p.1.SamAccountName) (hne : p.1.SamAccountName ≠ p'.1.SamAccountName)
    (hunderscore : '_' ∈ p.1.SamAccountName) :
    fill (cells date p.1.SamAccountName p.2.expiry (decimal p.2.days)) p'.1.SamAccountName
        p'.2.expiry (decimal p'.2.days) ≠
      cells date p'.1.SamAccountName p'.2.expiry (decimal p'.2.days) := by
  obtain ⟨-, happroved, hrejected, helapsed⟩ := placeholder_mem
  obtain ⟨⟨happroved_ne, -, happroved_underscore⟩, -⟩ := placeholder_spec _ happroved
  obtain ⟨⟨hrejected_ne, -, hrejected_underscore⟩, -⟩ := placeholder_spec _ hrejected
  obtain ⟨⟨helapsed_ne, -, helapsed_underscore⟩, -⟩ := placeholder_spec _ helapsed
  obtain ⟨hexpiry, hdays⟩ := notMem_notice hp (c := 'a') (by decide)
  obtain ⟨hexpiry_underscore, hdays_underscore⟩ := notMem_notice hp (c := '_') (by decide)
  obtain ⟨hexpiry_underscore', hdays_underscore'⟩ := notMem_notice hp' (c := '_') (by decide)
  rw [fill_cells _ _ _ _ hdate hexpiry hdays]
  intro h
  cases hin : contains "VarApproved".toList p.1.SamAccountName with
  | true =>
    -- the account of the second user comes in addition to what is left of the first one
    have hcount := congrArg (List.count '_') h
    rw [count_cells hdate' hexpiry_underscore hdays_underscore,
      count_cells hdate' hexpiry_underscore' hdays_underscore', fill] at hcount
    have hfirst := (count_replace happroved_ne happroved_underscore p'.1.SamAccountName
      p.1.SamAccountName).2 hin
    have hsecond := (count_replace hrejected_ne hrejected_underscore p'.2.expiry
      (replace "VarApproved".toList p'.1.SamAccountName p.1.SamAccountName)).1
    have hthird := (count_replace helapsed_ne helapsed_underscore (decimal p'.2.days)
      (replace "VarRejected".toList p'.2.expiry
        (replace "VarApproved".toList p'.1.SamAccountName p.1.SamAccountName))).1
    have hpos := List.count_pos_iff.mpr hunderscore
    omega
  | false =>
    rw [fill, replace_eq_self happroved_ne _ hin, replace_eq_self hrejected_ne _ hplain.1,
      replace_eq_self helapsed_ne _ hplain.2] at h
    obtain ⟨day, hday, hnumber⟩ := notice_eq_some hp
    obtain ⟨day', hday', hnumber'⟩ := notice_eq_some hp'
    refine hne (account_eq_of_cells_eq hnumber hnumber' ?_ h)
    rw [hday, hday', length_formatDay, length_formatDay]

theorem Found.underscore_mem [Culture] (found : Found) {user : User} (h : user ∈ found.users) :
    '_' ∈ user.SamAccountName := by
  obtain ⟨name, suffix, hname, -⟩ := found.filter user h
  rw [hname]
  exact List.mem_append_right _ List.mem_cons_self

/-- Two users that are due have different accounts. -/
theorem Found.account_ne [Culture] (found : Found) {date : Text} {p p' : User × Notice}
    {ps : List (User × Notice)} (h : due date found.users = p :: p' :: ps) :
    p.1.SamAccountName ≠ p'.1.SamAccountName := by
  have hsub : ((due date found.users).map fun p => p.1.SamAccountName).Sublist
      (found.users.map User.SamAccountName) := by
    induction found.users with
    | nil => exact List.Sublist.refl _
    | cons user users ih =>
      rw [due, List.filterMap_cons]
      cases notice date user with
      | none => exact ih.cons _
      | some n => exact ih.cons_cons _
  have hnodup := found.nodup.sublist hsub
  rw [h, List.map_cons, List.nodup_cons] at hnodup
  intro heq
  rw [heq] at hnodup
  exact hnodup.1 List.mem_cons_self

/-- The mail of a single user. -/
theorem ownMail_iff {date : Text} {p : User × Notice} (hp : notice date p.1 = some p.2)
    (hdate : 'a' ∉ date) :
    (Loop.send date ⟨replace "VarReportDate".toList date EmailBody, []⟩ p).sent = [ownMail date p] ↔
      PlainAccount p.1.SamAccountName := by
  rw [sent_first hp hdate, ← replace_account_iff hp, ownMail]
  simp only [List.cons.injEq, Mail.mk.injEq, true_and, and_true]
  exact ⟨cells_account_inj, fun h => by rw [h]⟩

/-- With two users that are due some mail is wrong. -/
theorem Found.not_personal [Culture] (found : Found) {today : Nat} {p p' : User × Notice}
    {ps : List (User × Notice)} (h : due (formatDay today) found.users = p :: p' :: ps) :
    ¬Personal today found.users := by
  intro hpersonal
  have hdate := notMem_formatDay today (c := 'a') (by decide)
  have hp := (mem_due (h ▸ List.mem_cons_self : p ∈ due _ found.users))
  have hp' := (mem_due (h ▸ List.mem_cons_of_mem _ List.mem_cons_self : p' ∈ due _ found.users))
  rw [Personal, mails_eq, h, List.foldl_cons, List.foldl_cons] at hpersonal
  have hbegins := prefix_foldl_send (formatDay today) ps
    (((⟨replace "VarReportDate".toList (formatDay today) EmailBody, []⟩ : Loop).send
      (formatDay today) p).send (formatDay today) p')
  rw [hpersonal, sent_first hp.2 hdate] at hbegins
  obtain ⟨rest, hrest⟩ := hbegins
  simp only [Loop.send, List.map_cons, ownMail, List.cons_append, List.nil_append,
    List.cons.injEq, Mail.mk.injEq, true_and] at hrest
  obtain ⟨hfirst, hsecond, -⟩ := hrest
  have hplain := (replace_account_iff hp.2).mp (cells_account_inj hfirst)
  rw [hfirst] at hsecond
  exact fill_ne_ownMail hp.2 hp'.2 hdate (notMem_formatDay today (by decide)) hplain
    (found.account_ne h) (found.underscore_mem hp.1) hsecond

/-- Every user that is due gets a mail with the own data exactly if at most one user is due, in
whose account no name of a cell stands that is replaced behind it. -/
theorem personal_iff [Culture] (today : Nat) (found : Found) :
    Personal today found.users ↔ (due (formatDay today) found.users).length ≤ 1 ∧
      ∀ p ∈ due (formatDay today) found.users, PlainAccount p.1.SamAccountName := by
  match hdue : due (formatDay today) found.users with
  | [] => simp [Personal, mails_eq, hdue]
  | [p] =>
    have hp := (mem_due (hdue ▸ List.mem_cons_self : p ∈ due _ found.users)).2
    have hone := ownMail_iff hp (notMem_formatDay today (by decide))
    rw [Personal, mails_eq, hdue, List.foldl_cons, List.foldl_nil, List.map_singleton, hone]
    simp
  | p :: p' :: ps =>
    refine iff_of_false (found.not_personal hdue) fun h => ?_
    simp at h

section Example

local instance asciiExpiryMails : Culture := Culture.ascii

/-- Two accounts whose passwords expire ten days after the 1st of January 2024. -/
def sameDay : Found where
  users := [⟨"ivanov_adm".toList, some "ivanov@astra.local".toList, some 738895⟩,
    ⟨"petrov_adm".toList, some "petrov@astra.local".toList, some 738895⟩]
  nodup := by decide +kernel
  filter := by
    intro user huser
    rcases List.mem_cons.mp huser with rfl | huser
    · exact ⟨"ivanov".toList, "adm".toList, rfl, by decide +kernel⟩
    · rw [List.mem_singleton.mp huser]
      exact ⟨"petrov".toList, "adm".toList, rfl, by decide +kernel⟩

/-- The second mail shows the account of the first user. -/
theorem sameDay_not_personal : ¬Personal 738885 sameDay.users := by
  have hdue : (due (formatDay 738885) sameDay.users).length = 2 := by decide +kernel
  match h : due (formatDay 738885) sameDay.users with
  | [] => simp [h] at hdue
  | [p] => simp [h] at hdue
  | p :: p' :: ps => exact sameDay.not_personal h

end Example

end OpsScripts.Reports
