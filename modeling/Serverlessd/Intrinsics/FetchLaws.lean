import Serverlessd.Intrinsics.Fetch

namespace Serverlessd

/-- While the execution is terminating, V8 answers no call, keeps the termination, and makes no
resolver. -/
structure V8.Terminates (v8 : V8) : Prop where
  call : ∀ {α : Type} (c : Completion α), v8.call c = none
  throw : ∀ message, v8.throw message = .termination
  resolver : v8.resolver = false

namespace Reqwest

/-- The documented behaviour that `fetch` relies on: a parser keeps its string, a name of a
header but for its case, and a map of headers has one value for a name, the last one. -/
structure Lawful (http : Reqwest) : Prop where
  get : http.methodFromStr "GET" = some http.GET
  empty : http.methodFromStr "" = none
  method : ∀ {s m}, http.methodFromStr s = some m → http.methodStr m = s
  name : ∀ {s n}, http.headerNameFromStr s = some n → http.headerNameStr n = s.map Char.toLower
  name_inj : Function.Injective http.headerNameStr
  value : ∀ {s v}, http.headerValueFromStr s = some v → http.headerValueStr v = s
  get_new : ∀ n, http.get http.headerMapNew n = none
  get_insert : ∀ {m m' n v}, http.insert m n v = some m' → http.get m' n = some v
  get_insert_ne : ∀ {m m' n n' v}, http.insert m n v = some m' → n' ≠ n →
    http.get m' n' = http.get m n'
  get_replace : ∀ {m m' base}, http.replaceHeaders base m = some m' → ∀ n,
    http.get m' n = (http.get m n).or (http.get base n)

end Reqwest

namespace Scope

variable {v8 : V8} {α : Type} {scope : Scope}

theorem call_normal (h : scope.terminating = false) (a : α) :
    scope.call v8 (.normal a) = (some a, scope) := by
  simp [call, h]

theorem call_threw (h : scope.terminating = false) :
    scope.call v8 (.threw : Completion α) = (none, ⟨some .script⟩) := by
  simp [call, h]

theorem call_terminated (h : scope.terminating = false) :
    scope.call v8 (.terminated : Completion α) = (none, ⟨some .termination⟩) := by
  simp [call, h]

theorem call_none (hs : scope.terminating = false) {c : Completion α} {scope' : Scope}
    (h : scope.call v8 c = (none, scope')) : scope'.exception.isSome := by
  simp only [call, hs, Bool.false_eq_true, if_false] at h
  split at h <;> cases h <;> rfl

theorem call_some (hs : scope.terminating = false) {c : Completion α} {scope' : Scope} {a : α}
    (h : scope.call v8 c = (some a, scope')) : c = .normal a ∧ scope' = scope := by
  simp only [call, hs, Bool.false_eq_true, if_false] at h
  split at h <;> cases h
  exact ⟨rfl, rfl⟩

theorem terminating_of_call (hv8 : v8.Terminates) {c : Completion α} {scope' : Scope} {a : α}
    (h : scope.call v8 c = (some a, scope')) : scope.terminating = false := by
  cases hs : scope.terminating with
  | false => rfl
  | true => simp [call, hs, hv8.call] at h

end Scope

namespace Fetch

variable {v8 : V8} {http : Reqwest} {scope : Scope} {get : String → Completion JsValue} {key : String}
  {keys : List String} {rqHeaders : http.HeaderMap}

theorem reject_empty {message : String} : (reject v8 {} message : Outcome http) =
    .returned ⟨some (.typeError message)⟩ (some (.rejected (.typeError message))) none := by
  simp [reject, Scope.throw, Scope.resolver, Scope.terminating]

theorem reject_termination (hv8 : v8.Terminates) {message : String} :
    (reject v8 ⟨some .termination⟩ message : Outcome http) = .panicked := by
  simp [reject, Scope.throw, Scope.resolver, Scope.terminating, hv8.throw, hv8.resolver]

def Converts (c : Completion JsValue) (accepted : String → Prop) : Prop :=
  ∃ v s, c = .normal v ∧ v.toStr = .normal s ∧ accepted s

def ValidMethod (http : Reqwest) (get : String → Completion JsValue) : Prop :=
  Converts (get "method") fun s => (http.methodFromStr s).isSome

def ValidHeader (http : Reqwest) (get : String → Completion JsValue) (key : String) : Prop :=
  (http.headerNameFromStr key).isSome ∧
    Converts (get key) fun s => (http.headerValueFromStr s).isSome

def ValidHeaders (http : Reqwest) : Completion JsValue → Prop
  | .normal (.object _ get (.normal names)) => ∀ key ∈ names, ValidHeader http get key
  | .normal (.object _ _ _) => False
  | .normal _ => True
  | .threw | .terminated => False

def Illegal (http : Reqwest) (get : String → Completion JsValue) : List String → Prop
  | [] => False
  | key :: keys =>
    ¬ ValidHeader http get key ∧ Converts (get key) (fun _ => True) ∨
      ValidHeader http get key ∧ Illegal http get keys

/-- The properties are headers up to one for which the map has no room, or they all are, and
the map `full`. -/
def Overflows (http : Reqwest) (get : String → Completion JsValue) (full : http.HeaderMap → Prop) :
    List String → http.HeaderMap → Prop
  | [], rqHeaders => full rqHeaders
  | key :: keys, rqHeaders =>
    ∃ name value, http.headerNameFromStr key = some name ∧
      Converts (get key) (http.headerValueFromStr · = some value) ∧
      ∀ rqHeaders', http.insert rqHeaders name value = some rqHeaders' →
        Overflows http get full keys rqHeaders'

inductive LoopEnd (http : Reqwest) (get : String → Completion JsValue) (scope : Scope)
    (keys : List String) (rqHeaders : http.HeaderMap) :
    Except (Outcome http) (http.HeaderMap × Scope) → Prop
  | done {rqHeaders' : http.HeaderMap} (valid : ∀ key ∈ keys, ValidHeader http get key)
      (legal : ¬ Illegal http get keys)
      (full : ∀ full, Overflows http get full keys rqHeaders ↔ full rqHeaders') :
      LoopEnd http get scope keys rqHeaders (.ok (rqHeaders', scope))
  | full (full : ∀ full, Overflows http get full keys rqHeaders) :
      LoopEnd http get scope keys rqHeaders (.error .panicked)
  | illegal (illegal : Illegal http get keys)
      (room : ∀ full, ¬ Overflows http get full keys rqHeaders) :
      LoopEnd http get scope keys rqHeaders (.error (.returned scope none none))
  | unread {scope' : Scope} (exception : scope'.exception.isSome)
      (valid : ¬ ∀ key ∈ keys, ValidHeader http get key) (legal : ¬ Illegal http get keys)
      (room : ∀ full, ¬ Overflows http get full keys rqHeaders) :
      LoopEnd http get scope keys rqHeaders (.error (.returned scope' none none))

theorem converts_iff {c : Completion JsValue} {v : JsValue} {s : String} {accepted : String → Prop}
    (hc : c = .normal v) (hs : v.toStr = .normal s) : Converts c accepted ↔ accepted s := by
  constructor
  · rintro ⟨w, t, hw, ht, h⟩
    cases hc.symm.trans hw
    cases hs.symm.trans ht
    exact h
  · exact fun h => ⟨v, s, hc, hs, h⟩

theorem Converts.mono {c : Completion JsValue} {p q : String → Prop} (h : Converts c p)
    (hpq : ∀ s, p s → q s) : Converts c q := by
  obtain ⟨v, s, hc, hs, hp⟩ := h
  exact ⟨v, s, hc, hs, hpq s hp⟩

theorem insertHeaders_cons (hs : scope.terminating = false) :
    (∃ name value, http.headerNameFromStr key = some name ∧
      Converts (get key) (http.headerValueFromStr · = some value) ∧
      insertHeaders v8 get (key :: keys) scope rqHeaders =
        match http.insert rqHeaders name value with
        | some rqHeaders => insertHeaders v8 get keys scope rqHeaders
        | none => .error .panicked) ∨
    (¬ ValidHeader http get key ∧ Converts (get key) (fun _ => True) ∧
      insertHeaders v8 get (key :: keys) scope rqHeaders = .error (.returned scope none none)) ∨
    (¬ Converts (get key) (fun _ => True) ∧ ∃ scope' : Scope, scope'.exception.isSome ∧
      insertHeaders v8 get (key :: keys) scope rqHeaders = .error (.returned scope' none none)) := by
  rcases hcall : scope.call v8 (get key) with ⟨_ | val, scope'⟩
  · refine .inr (.inr ⟨?_, scope', Scope.call_none hs hcall, ?_⟩)
    · rintro ⟨v, s, hv, -⟩
      rw [hv, Scope.call_normal hs] at hcall
      cases hcall
    · simp [insertHeaders, hcall, orReturn, bind, Except.bind]
  obtain ⟨hget, rfl⟩ := Scope.call_some hs hcall
  rcases hstring : scope'.call v8 val.toStr with ⟨_ | string, scope''⟩
  · refine .inr (.inr ⟨?_, scope'', Scope.call_none hs hstring, ?_⟩)
    · rintro ⟨v, s, hv, hstr, -⟩
      cases hget.symm.trans hv
      rw [hstr, Scope.call_normal hs] at hstring
      cases hstring
    · simp [insertHeaders, hcall, hstring, orReturn, bind, Except.bind]
  obtain ⟨hstr, rfl⟩ := Scope.call_some hs hstring
  simp only [ValidHeader, converts_iff hget hstr]
  cases hname : http.headerNameFromStr key with
  | none =>
    refine .inr (.inl ⟨by simp, trivial, ?_⟩)
    simp [insertHeaders, hcall, hstring, hname, orReturn, bind, Except.bind]
  | some name =>
    cases hvalue : http.headerValueFromStr string with
    | none =>
      refine .inr (.inl ⟨by simp, trivial, ?_⟩)
      simp [insertHeaders, hcall, hstring, hname, hvalue, orReturn, bind, Except.bind]
    | some value =>
      refine .inl ⟨name, value, rfl, rfl, ?_⟩
      cases hinsert : http.insert rqHeaders name value <;>
        simp [insertHeaders, hcall, hstring, hname, hvalue, hinsert, orReturn, bind, Except.bind]

theorem illegal_cons_of_valid (h : ValidHeader http get key) :
    Illegal http get (key :: keys) ↔ Illegal http get keys := by
  simp [Illegal, h]

theorem not_illegal_of_unread (h : ¬ Converts (get key) fun _ => True) :
    ¬ Illegal http get (key :: keys) := by
  rintro (⟨-, hconv⟩ | ⟨⟨-, hconv⟩, -⟩)
  · exact h hconv
  · exact h (hconv.mono fun _ _ => trivial)

theorem overflows_cons {name : http.HeaderName} {value : http.HeaderValue}
    {full : http.HeaderMap → Prop} (hname : http.headerNameFromStr key = some name)
    (hvalue : Converts (get key) (http.headerValueFromStr · = some value)) :
    Overflows http get full (key :: keys) rqHeaders ↔ ∀ rqHeaders',
      http.insert rqHeaders name value = some rqHeaders' →
        Overflows http get full keys rqHeaders' := by
  constructor
  · rintro ⟨name', value', hname', ⟨v, s, hv, hs, hvalue'⟩, h⟩
    cases hname.symm.trans hname'
    cases ((converts_iff hv hs).mp hvalue).symm.trans hvalue'
    exact h
  · exact fun h => ⟨name, value, hname, hvalue, h⟩

theorem not_overflows_of_invalid {full : http.HeaderMap → Prop} (h : ¬ ValidHeader http get key) :
    ¬ Overflows http get full (key :: keys) rqHeaders := by
  rintro ⟨name, value, hname, hvalue, -⟩
  exact h ⟨by simp [hname], hvalue.mono fun s hs => by simp [hs]⟩

theorem insertHeaders_end (hs : scope.terminating = false) :
    LoopEnd http get scope keys rqHeaders (insertHeaders v8 get keys scope rqHeaders) := by
  induction keys generalizing rqHeaders with
  | nil => exact .done (by simp) (by simp [Illegal]) (by simp [Overflows])
  | cons key keys ih =>
    obtain ⟨name, value, hname, hvalue, hcons⟩ | ⟨hvalid, hconv, hcons⟩ | ⟨hconv, scope', hexc, hcons⟩ :=
      @insertHeaders_cons v8 http scope get key keys rqHeaders hs
    · have hvalid : ValidHeader http get key :=
        ⟨by simp [hname], hvalue.mono fun s hs => by simp [hs]⟩
      have hover : ∀ full, Overflows http get full (key :: keys) rqHeaders ↔ _ :=
        fun full => overflows_cons hname hvalue
      rw [hcons]
      cases hinsert : http.insert rqHeaders name value with
      | none => exact .full fun full => (hover full).mpr (by simp [hinsert])
      | some rqHeaders' =>
        simp only [hinsert, Option.some.injEq, forall_eq'] at hover
        have hend := @ih rqHeaders'
        dsimp only
        generalize insertHeaders v8 get keys scope rqHeaders' = out at hend ⊢
        cases hend with
        | done valid legal full =>
          refine .done (by simpa [hvalid] using valid) ?_ fun f => (hover f).trans (full f)
          rwa [illegal_cons_of_valid hvalid]
        | full full => exact .full fun f => (hover f).mpr (full f)
        | illegal illegal room =>
          exact .illegal ((illegal_cons_of_valid hvalid).mpr illegal) fun f h => room f ((hover f).mp h)
        | unread exception valid legal room =>
          refine .unread exception (by simpa [hvalid] using valid) ?_ fun f h => room f ((hover f).mp h)
          rwa [illegal_cons_of_valid hvalid]
    · rw [hcons]
      exact .illegal (.inl ⟨hvalid, hconv⟩) fun _ => not_overflows_of_invalid hvalid
    · have hvalid : ¬ ValidHeader http get key := fun h => hconv (h.2.mono fun _ _ => trivial)
      rw [hcons]
      exact .unread hexc (by simp [hvalid]) (not_illegal_of_unread hconv)
        fun _ => not_overflows_of_invalid hvalid

def Full (http : Reqwest) (url : String) (rqHeaders : http.HeaderMap) : Prop :=
  ∃ base, http.request url = some base ∧ http.replaceHeaders base rqHeaders = none

def IllegalHeaders (http : Reqwest) : Completion JsValue → Prop
  | .normal (.object _ get (.normal names)) => Illegal http get names
  | _ => False

def HeadersOverflow (http : Reqwest) (url : String) : Completion JsValue → Prop
  | .normal (.object _ get (.normal names)) =>
    Overflows http get (Full http url) names http.headerMapNew
  | _ => False

inductive HeadersEnd (http : Reqwest) (url : String) (c : Completion JsValue) (scope : Scope) :
    Except (Outcome http) (RequestBuilder http × Scope) → Prop
  | done {rq : RequestBuilder http} (valid : ValidHeaders http c) (legal : ¬ IllegalHeaders http c)
      (room : ¬ HeadersOverflow http url c) : HeadersEnd http url c scope (.ok (rq, scope))
  | full (full : HeadersOverflow http url c) : HeadersEnd http url c scope (.error .panicked)
  | illegal (illegal : IllegalHeaders http c) (room : ¬ HeadersOverflow http url c) :
      HeadersEnd http url c scope (.error (.returned scope none none))
  | unread {scope' : Scope} (exception : scope'.exception.isSome) (valid : ¬ ValidHeaders http c)
      (legal : ¬ IllegalHeaders http c) (room : ¬ HeadersOverflow http url c) :
      HeadersEnd http url c scope (.error (.returned scope' none none))

theorem withHeaders_cases {method : http.Method} {url : String} (rqHeaders : http.HeaderMap) :
    (Full http url rqHeaders ∧
      (RequestBuilder.new method url).withHeaders rqHeaders = .error .panicked) ∨
    (¬ Full http url rqHeaders ∧
      ∃ rq, (RequestBuilder.new method url).withHeaders rqHeaders = .ok rq) := by
  unfold RequestBuilder.withHeaders RequestBuilder.new Full
  cases hbase : http.request url with
  | none => exact .inr ⟨by simp, _, rfl⟩
  | some base =>
    cases hreplace : http.replaceHeaders base rqHeaders with
    | none => exact .inl ⟨⟨base, rfl, hreplace⟩, by simp [hreplace]⟩
    | some headers => exact .inr ⟨by simp [hreplace], ⟨method, url, some headers⟩, by simp [hreplace]⟩

theorem headers_end {url : String} {method : http.Method} (hs : scope.terminating = false) :
    HeadersEnd http url (get "headers") scope (headers v8 get scope (.new method url)) := by
  rcases hcall : scope.call v8 (get "headers") with ⟨_ | headersK, scope'⟩
  · simp only [headers, hcall, orReturn, bind, Except.bind]
    have hexc := Scope.call_none hs hcall
    cases hget : get "headers" with
    | normal v =>
      rw [hget, Scope.call_normal hs] at hcall
      cases hcall
    | threw | terminated => exact .unread hexc id id id
  obtain ⟨hget, rfl⟩ := Scope.call_some hs hcall
  rw [hget]
  cases headersK with
  | object string get' names =>
    rcases hnames : scope'.call v8 names with ⟨_ | names', scope''⟩
    · simp only [headers, hcall, hnames, orReturn, bind, Except.bind]
      have hexc := Scope.call_none hs hnames
      cases names with
      | normal names =>
        rw [Scope.call_normal hs] at hnames
        cases hnames
      | threw | terminated => exact .unread hexc id id id
    obtain ⟨rfl, rfl⟩ := Scope.call_some hs hnames
    have hend := @insertHeaders_end v8 http scope'' get' names' http.headerMapNew hs
    simp only [headers, hcall, hnames, orReturn, bind, Except.bind]
    generalize insertHeaders v8 get' names' scope'' http.headerMapNew = out at hend ⊢
    cases hend with
    | @done rqHeaders valid legal full =>
      obtain ⟨hfull, hrq⟩ | ⟨hroom, rq, hrq⟩ := @withHeaders_cases http method url rqHeaders
      · simp only [hrq]
        exact .full ((full _).mpr hfull)
      · simp only [hrq]
        exact .done valid legal fun h => hroom ((full _).mp h)
    | full full => exact .full (full _)
    | illegal illegal room => exact .illegal illegal (room _)
    | unread exception valid legal room => exact .unread exception valid legal (room _)
  | undefined | null | primitive | symbol =>
    simp only [headers, hcall, orReturn, bind, Except.bind]
    exact .done trivial id id

inductive MethodEnd (v8 : V8) (http : Reqwest) (c : Completion JsValue) :
    Except (Outcome http) (http.Method × Scope) → Prop
  | read {method : http.Method} (valid : Converts c (http.methodFromStr · = some method)) :
      MethodEnd v8 http c (.ok (method, {}))
  | threw (threw : c = .threw) : MethodEnd v8 http c (.ok (http.GET, ⟨some .script⟩))
  | terminated (terminated : c = .terminated) :
      MethodEnd v8 http c (.ok (http.GET, ⟨some .termination⟩))
  | rejected {v : JsValue} (value : c = .normal v) (string : v.toStr ≠ .terminated)
      (valid : ¬ Converts c fun s => (http.methodFromStr s).isSome) :
      MethodEnd v8 http c (.error (reject v8 {} "fetch: Invalid method"))
  | panicked {v : JsValue} (value : c = .normal v) (string : v.toStr = .terminated) :
      MethodEnd v8 http c (.error .panicked)

theorem method_end (hv8 : v8.Terminates) (hhttp : http.Lawful) :
    MethodEnd v8 http (get "method") (method v8 get {}) := by
  have hs : Scope.terminating {} = false := rfl
  cases hget : get "method" with
  | normal v =>
    simp only [method, hget, Scope.call_normal hs]
    cases hstr : v.toStr with
    | normal s =>
      simp only [Scope.call_normal hs, Option.getD_some]
      cases hmethod : http.methodFromStr s with
      | some m => exact .read ⟨v, s, rfl, hstr, hmethod⟩
      | none =>
        refine .rejected rfl (by simp [hstr]) ?_
        rw [converts_iff rfl hstr]
        simp [hmethod]
    | threw =>
      simp only [Scope.call_threw hs, Option.getD_none, hhttp.empty]
      refine .rejected rfl (by simp [hstr]) ?_
      rintro ⟨w, s, hw, hs, -⟩
      cases hw
      cases hstr.symm.trans hs
    | terminated =>
      simp only [Scope.call_terminated hs, Option.getD_none, hhttp.empty, reject_termination hv8]
      exact .panicked rfl hstr
  | threw =>
    simp only [method, hget, Scope.call_threw hs, hhttp.get]
    exact .threw rfl
  | terminated =>
    simp only [method, hget, Scope.call_terminated hs, hhttp.get]
    exact .terminated rfl

def Valid (http : Reqwest) : List JsValue → Prop
  | [] => False
  | url :: rest =>
    (∃ s, url.toStr = .normal s ∧ (http.request s).isSome) ∧
      match rest.headD .undefined with
      | .object _ get _ => ValidMethod http get ∧ ValidHeaders http (get "headers")
      | _ => True

end Fetch

def Outcome.Answers {http : Reqwest} (valid : Prop) : Outcome http → Prop
  | .panicked => False
  | .returned scope rv _ =>
    scope.exception.isSome ∨ ∃ promise, rv = some promise ∧ (¬ valid → ∃ exc, promise = .rejected exc)

namespace Fetch

variable {v8 : V8} {http : Reqwest} {get : String → Completion JsValue} {url : String} {valid : Prop}

def afterMethod (v8 : V8) (get : String → Completion JsValue) (url : String) (method : http.Method)
    (scope : Scope) : Outcome http :=
  match headers v8 get scope (.new method url) with
  | .error outcome => outcome
  | .ok (rq, scope) => send v8 scope rq

theorem afterMethod_termination (hv8 : v8.Terminates) {method : http.Method} :
    afterMethod v8 get url method ⟨some .termination⟩ = .returned ⟨some .termination⟩ none none := by
  simp [afterMethod, headers, Scope.call, Scope.terminating, hv8.call, orReturn, bind, Except.bind]

def withOptions (v8 : V8) (get : String → Completion JsValue) (url : String) : Outcome http :=
  match method v8 get {} with
  | .error outcome => outcome
  | .ok (method, scope) => afterMethod v8 get url method scope

theorem fetch_of_call {args : List JsValue} {string : JsValue} {s : String}
    (hs : string.toStr = .normal s) : fetch v8 http (string :: args) =
      match args.headD .undefined with
      | .object _ get _ => withOptions v8 get s
      | _ => send v8 {} (.new http.GET s) := by
  simp only [fetch, hs, Scope.call_normal (rfl : Scope.terminating {} = false)]
  cases args.headD .undefined <;> rfl

def tokenChar (c : Char) : Bool := c.isAlphanum || "!#$%&'*+-.^_`|~".toList.contains c

def isToken (s : String) : Bool := s ≠ "" && s.toList.all tokenChar

def isValue (s : String) : Bool := s.toList.all fun c => (32 ≤ c.toNat && c.toNat ≠ 127) || c = '\t'

def smallV8 : V8 := ⟨fun _ => none, fun _ => .termination, false⟩

theorem smallV8_terminates : smallV8.Terminates := ⟨fun _ => rfl, fun _ => rfl, rfl⟩

def smallHttp : Reqwest where
  Method := String
  HeaderName := String
  HeaderValue := String
  HeaderMap := List (String × String)
  methodFromStr s := if isToken s then some s else none
  headerNameFromStr s := if isToken s then some (s.map Char.toLower) else none
  headerValueFromStr s := if isValue s then some s else none
  GET := "GET"
  headerMapNew := []
  insert m n v := some ((n, v) :: m)
  get m n := m.lookup n
  request url := if "https://".toList.isPrefixOf url.toList then some [] else none
  replaceHeaders base m := some (m ++ base)
  methodStr := id
  headerNameStr := id
  headerValueStr := id

theorem lookup_cons_ne {n n' v : String} {m : List (String × String)} (h : n' ≠ n) :
    ((n, v) :: m).lookup n' = m.lookup n' := by
  rw [List.lookup_cons, beq_false_of_ne h]

theorem smallHttp_lawful : smallHttp.Lawful where
  get := rfl
  empty := rfl
  method h := (Option.some.inj (Option.ite_none_right_eq_some.mp h).2).symm
  name h := (Option.some.inj (Option.ite_none_right_eq_some.mp h).2).symm
  name_inj := Function.injective_id
  value h := (Option.some.inj (Option.ite_none_right_eq_some.mp h).2).symm
  get_new _ := rfl
  get_insert {m m' n v} h := by
    obtain rfl : (n, v) :: m = m' := Option.some.inj h
    exact List.lookup_cons_self (α := String)
  get_insert_ne {m m' n n' v} h hn := by
    obtain rfl : (n, v) :: m = m' := Option.some.inj h
    exact lookup_cons_ne hn
  get_replace {m m' base} h n := by
    have hm : List.append m base = m' := Option.some.inj h
    rw [← hm]
    exact List.lookup_append (α := String)

def plain (properties : List (String × JsValue)) : JsValue :=
  .object (.normal "[object Object]")
    (fun name => .normal ((properties.lookup name).getD .undefined))
    (.normal (properties.map Prod.fst))

end Fetch

end Serverlessd
