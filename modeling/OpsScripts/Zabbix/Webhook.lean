import OpsScripts.Core.JsonText
import OpsScripts.Core.Markup

/-!
# The webhook for YouTrack

The monitoring gives the texts of an alert to a script, which opens an issue: the texts become the
summary and the description of a JSON document, the latter in a markup if the media type asks for
one. Whatever goes wrong is thrown, so that the monitoring tries again.
-/

namespace OpsScripts.Zabbix.Webhook

open Json

/-! ## The script -/

/-- The parameters of the media type; a missing one is `undefined`. -/
structure Params where
  HTTPProxy : Option Text
  Message : Option Text
  ParseMode : Option Text
  Subject : Option Text
  To : Option Text
  Token : Option Text
  Url : Option Text

/-- What the script looks at in an answer that is JSON: `description`, if it is a string. -/
inductive Answer where
  | null
  | value (description : Option Text)

/-- What the engine brings with it: `JSON.stringify` and `JSON.parse`, `toLowerCase`, and the text
of the error about a property of `undefined` or `null`. -/
structure Engine where
  escape : Char → Text
  spelling : ∀ c, Spelling c (escape c)
  parse : Text → Option Answer
  toLowerCase : Text → Text
  typeError : String → Text

/-- `JSON.stringify`. -/
def Engine.stringify (E : Engine) : Style where
  behindComma := []
  behindColon := []
  escape := E.escape
  blank_comma := blank_nil
  blank_colon := blank_nil
  spelling := E.spelling

/-- What is posted. -/
structure Request where
  url : Text
  proxy : Option Text
  headers : List Text
  data : Text

/-- What comes back. -/
structure Response where
  body : Text
  status : Nat

/-- `var Youtrack`. -/
structure Youtrack where
  token : Text
  To : Option Text
  message : Text
  proxy : Option Text
  parse_mode : Option Text
  title : Option Text
  url : Text

/-- The letters behind `case 'markdown'` and `case 'markdownv2'`. -/
def active (mode : Text) (c : Char) : Bool :=
  if mode = "markdown".toList then "_*[`".toList.contains c
  else if mode = "markdownv2".toList then "_*[]()~`>#+-=|\x7b\x7d.!".toList.contains c
  else false

/-- `escapeMarkup`. -/
def escapeMarkup (str mode : Text) : Text :=
  if mode = "markdown".toList ∨ mode = "markdownv2".toList then Markup.escape (active mode) str
  else str

/-- `'' + v` of a value that may be `undefined`. -/
def text (v : Option Text) : Text := v.getD "undefined".toList

/-- A member of an object; one that is `undefined` is left out. -/
def member (k : String) (v : Option Text) : List (Text × Json) :=
  v.toList.map fun t => (k.toList, .str t)

/-- The object that `sendMessage` makes. -/
def Youtrack.params (y : Youtrack) : Json :=
  .obj (("project".toList, .obj (member "id" y.To)) :: (member "summary" y.title ++
    (("description".toList, .str y.message) :: member "parse_mode" y.parse_mode)))

section Script

variable (E : Engine)

/-- The beginning of the script. -/
def fill (params : Params) : Except Text Youtrack := do
  let token ← match params.Token with
    | none =>
      .error "Incorrect value is given for parameter \"Token\": parameter is missing".toList
    | some token => pure token
  let ParseMode ← match params.ParseMode with
    | none => .error (E.typeError "toLowerCase")
    | some mode => pure (E.toLowerCase mode)
  let message := text params.Subject ++ '\n' :: text params.Message
  pure
    { token := token
      To := params.To
      message :=
        if ["markdown".toList, "markdownv2".toList].contains ParseMode then
          escapeMarkup message ParseMode
        else message
      proxy := params.HTTPProxy.filter fun proxy => !proxy.isEmpty
      parse_mode :=
        if ["markdown".toList, "html".toList, "markdownv2".toList].contains ParseMode then
          some ParseMode
        else none
      title := params.Subject
      url := text params.Url }

/-- `sendMessage`, up to the request. -/
def Youtrack.request (y : Youtrack) : Request where
  url := y.url
  proxy := y.proxy
  headers := ["Accept: application/json".toList, "Authorization: Bearer ".toList ++ y.token,
    "Content-Type: application/json".toList]
  data := E.stringify.compact y.params

/-- `sendMessage`, behind the request. An answer that is no JSON is `null`, which has no member. -/
def check (response : Response) : Except Text Unit :=
  if response.status = 200 then pure ()
  else match (E.parse response.body).getD .null with
    | .null => .error (E.typeError "description")
    | .value (some description) => .error description
    | .value none => .error "Unknown error. Check debug log for more information.".toList

/-- The script, with the request as a parameter; an error of the request is thrown as well. -/
def webhook (post : Request → Except Text Response) (params : Params) : Except Text Text :=
  let sent : Except Text Unit := do
    let y ← fill E params
    let response ← post (y.request E)
    check E response
  match sent with
  | .ok () => .ok "OK".toList
  | .error error => .error ("Sending failed: ".toList ++ (error ++ ['.']))

end Script

/-! ## Opened issues -/

/-- What a service takes from a document. -/
structure Issue where
  project : Text
  summary : Text
  description : Text

/-- A member that is a text. -/
def textAt (k : String) (v : Json) : Option Text := do
  match ← v.get k.toList with
  | .str t => some t
  | _ => none

/-- The issue of a document. -/
def Issue.read (data : Text) : Option Issue := do
  let v ← loads data
  let project ← v.get "project".toList
  some
    { project := ← textAt "id" project
      summary := ← textAt "summary" v
      description := ← textAt "description" v }

/-- What the script posts, if it comes to that. -/
def posted (E : Engine) (params : Params) : Option Request :=
  (fill E params).toOption.map (Youtrack.request E)

section Issues

variable {E : Engine} {P : Params} {y : Youtrack}

/-- The keys of the object are different ones. -/
theorem allKeys_params (y : Youtrack) : AllKeys List.Nodup y.params := by
  obtain ⟨token, project, message, proxy, parse_mode, title, url⟩ := y
  cases project <;> cases parse_mode <;> cases title <;>
    simp [Youtrack.params, member, AllKeys, AllKeysMembers]

/-- What is posted tells the project, the title and the message. -/
theorem read_request {project summary : Text} (hproject : y.To = some project)
    (hsummary : y.title = some summary) :
    Issue.read (y.request E).data = some ⟨project, summary, y.message⟩ := by
  have hloads := E.stringify.loads_compact (allKeys_params y) blank_nil blank_nil
  rw [List.nil_append, List.append_nil] at hloads
  rw [Youtrack.request, Issue.read, hloads, Youtrack.params, hproject, hsummary]
  rfl

/-- A backslash is active in no mode. -/
theorem active_backslash (mode : Text) : active mode '\\' = false := by
  rw [active]
  split_ifs <;> decide

/-- Without a mode of its own the text stays. -/
theorem active_eq_false {mode : Text}
    (h : ¬["markdown".toList, "markdownv2".toList].contains mode = true) (c : Char) :
    active mode c = false := by
  simp only [List.contains_iff_mem, List.mem_pair, not_or] at h
  rw [active, if_neg h.1, if_neg h.2]

/-- In every mode the message is what escaping its active letters gives. -/
theorem escapeMarkup_of_contains (str mode : Text) :
    (if ["markdown".toList, "markdownv2".toList].contains mode then escapeMarkup str mode
      else str) = Markup.escape (active mode) str := by
  split_ifs with h
  · rw [escapeMarkup, if_pos]
    simpa only [List.contains_iff_mem, List.mem_pair] using h
  · exact (Markup.escape_eq_self fun c _ => active_eq_false h c).symm

/-- The fields that matter once the two parameters are there. -/
theorem fill_eq {token mode : Text} (htoken : P.Token = some token)
    (hmode : P.ParseMode = some mode) : ∃ y, fill E P = .ok y ∧ y.To = P.To ∧ y.title = P.Subject ∧
      y.message = Markup.escape (active (E.toLowerCase mode))
        (text P.Subject ++ '\n' :: text P.Message) := by
  simp only [fill, htoken, hmode]
  exact ⟨_, rfl, rfl, rfl, escapeMarkup_of_contains _ _⟩

/-- Nothing is posted without a token or a mode. -/
theorem posted_eq_none_iff : posted E P = none ↔ P.Token = none ∨ P.ParseMode = none := by
  rw [posted, Option.map_eq_none_iff]
  cases htoken : P.Token with
  | none => simp only [fill, htoken, true_or, iff_true]; rfl
  | some token =>
    cases hmode : P.ParseMode with
    | none => simp only [fill, htoken, hmode, or_true, iff_true]; rfl
    | some mode =>
      obtain ⟨y, hy, -⟩ := fill_eq (E := E) htoken hmode
      simp [hy, Except.toOption]

/-- The script succeeds exactly if the service accepts what it posts, whatever the answer says. -/
theorem webhook_ok_iff (post : Request → Except Text Response) :
    webhook E post P = .ok "OK".toList ↔
      ∃ request ∈ posted E P, ∃ response, post request = .ok response ∧ response.status = 200 := by
  have hcheck : ∀ response, check E response = .ok () ↔ response.status = 200 := by
    intro response
    rw [check]
    split_ifs with h
    · exact iff_of_true rfl h
    · refine iff_of_false ?_ h
      split <;> exact fun hok => by cases hok
  rw [webhook, posted]
  cases hfill : fill E P with
  | error e => simp [Except.toOption, bind, Except.bind]
  | ok y =>
    cases hpost : post (y.request E) with
    | error e => simp [Except.toOption, bind, Except.bind, hpost]
    | ok response =>
      have hiff := hcheck response
      cases hres : check E response with
      | error e =>
        rw [hres] at hiff
        simpa [Except.toOption, bind, Except.bind, hpost, hres] using hiff
      | ok u =>
        rw [hres] at hiff
        simpa [Except.toOption, bind, Except.bind, hpost, hres] using hiff

end Issues

theorem spelling_escape (c : Char) : Spelling c (Json.escape c) :=
  ⟨head?_escape c, readChar_escape c⟩

/-- An engine that spells what is not ASCII by escape sequences. -/
def engine : Engine where
  escape := Json.escape
  spelling := spelling_escape
  parse _ := some (.value none)
  toLowerCase t := t.map Char.toLower
  typeError property := ("TypeError: cannot read property " ++ property).toList

/-- An alert about a server with an underscore in its name. -/
def alert : Params where
  HTTPProxy := some []
  Message := some "Host: srv_01".toList
  ParseMode := some "Markdown".toList
  Subject := some "Problem".toList
  To := some "0-1".toList
  Token := some "perm".toList
  Url := some "/api/issues".toList

end OpsScripts.Zabbix.Webhook
