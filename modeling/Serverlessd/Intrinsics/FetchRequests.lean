import Serverlessd.Intrinsics.FetchLaws

namespace Serverlessd

namespace Fetch

variable {v8 : V8} {http : Reqwest} {scope scope' : Scope} {get : String → Completion JsValue}
  {key name url : String} {keys : List String} {rqHeaders rqHeaders' : http.HeaderMap}
  {c : Completion JsValue}

def text : Completion JsValue → Option String
  | .normal v =>
    match v.toStr with
    | .normal s => some s
    | .threw | .terminated => none
  | .threw | .terminated => none

theorem Converts.text {accepted : String → Prop} (h : Converts c accepted) :
    ∃ s, Fetch.text c = some s ∧ accepted s := by
  obtain ⟨v, s, rfl, hs, hacc⟩ := h
  exact ⟨s, by simp [Fetch.text, hs], hacc⟩

/-- The method that the property asks for: one that is `undefined` asks for none. -/
def wantedMethod (http : Reqwest) : Completion JsValue → Option http.Method
  | .normal .undefined => some http.GET
  | c => (text c).bind http.methodFromStr

def lastProperty (get : String → Completion JsValue) (names : List String) (name : String) :
    Option String :=
  (names.findRev? fun key => key.map Char.toLower = name).bind fun key => text (get key)

def wantedHeader : Completion JsValue → String → Option String
  | .normal (.object _ get (.normal names)), name => lastProperty get names name
  | _, _ => none

theorem lastProperty_cons (h : ∀ k ∈ keys, (text (get k)).isSome) :
    lastProperty get (key :: keys) name = (lastProperty get keys name).or
      (if key.map Char.toLower = name then text (get key) else none) := by
  simp only [lastProperty, List.findRev?]
  cases hlast : keys.findRev? fun key => key.map Char.toLower = name with
  | none => by_cases hkey : key.map Char.toLower = name <;> simp [hkey]
  | some last =>
    have hmem : last ∈ keys := by
      rw [List.findRev?_eq_find?_reverse] at hlast
      exact List.mem_reverse.mp (List.mem_of_find?_eq_some hlast)
    obtain ⟨s, hs⟩ := Option.isSome_iff_exists.mp (h last hmem)
    simp [hs]

theorem get_insertHeaders (hhttp : http.Lawful) (hs : scope.terminating = false)
    (h : insertHeaders v8 get keys scope rqHeaders = .ok (rqHeaders', scope')) :
    (∀ k ∈ keys, (text (get k)).isSome) ∧ ∀ n, (http.get rqHeaders' n).map http.headerValueStr =
      (lastProperty get keys (http.headerNameStr n)).or
        ((http.get rqHeaders n).map http.headerValueStr) := by
  induction keys generalizing rqHeaders with
  | nil =>
    cases h
    exact ⟨by simp, fun n => rfl⟩
  | cons key keys ih =>
    obtain ⟨name, value, hname, hvalue, hcons⟩ | ⟨-, -, hcons⟩ | ⟨-, _, -, hcons⟩ :=
      @insertHeaders_cons v8 http scope get key keys rqHeaders hs
    · rw [hcons] at h
      cases hinsert : http.insert rqHeaders name value with
      | none =>
        rw [hinsert] at h
        cases h
      | some rqHeaders₁ =>
        rw [hinsert] at h
        obtain ⟨htexts, hget⟩ := ih h
        obtain ⟨s, htext, hs⟩ := hvalue.text
        refine ⟨by simpa [htext] using htexts, fun n => ?_⟩
        rw [hget, lastProperty_cons htexts, Option.or_assoc]
        congr 1
        by_cases hn : n = name
        · subst hn
          rw [hhttp.get_insert hinsert, if_pos (hhttp.name hname).symm, htext]
          simp [hhttp.value hs]
        · have hkey : key.map Char.toLower ≠ http.headerNameStr n := by
            rw [← hhttp.name hname]
            exact fun he => hn (hhttp.name_inj he).symm
          rw [hhttp.get_insert_ne hinsert hn, if_neg hkey, Option.none_or]
    · rw [hcons] at h
      cases h
    · rw [hcons] at h
      cases h

def Headed (http : Reqwest) (c : Completion JsValue) (rq : RequestBuilder http) : Prop :=
  ∀ base, http.request rq.url = some base → ∃ rqHeaders, rq.headers = some rqHeaders ∧
    ∀ n, (http.get rqHeaders n).map http.headerValueStr =
      (wantedHeader c (http.headerNameStr n)).or ((http.get base n).map http.headerValueStr)

theorem headed_new {method : http.Method} (hnone : ∀ name, wantedHeader c name = none) :
    Headed http c (.new method url) :=
  fun base hbase => ⟨base, hbase, fun n => by rw [hnone, Option.none_or]⟩

theorem withHeaders_ok (hhttp : http.Lawful) {method : http.Method} {rq : RequestBuilder http}
    (hget : ∀ n, (http.get rqHeaders n).map http.headerValueStr =
      wantedHeader c (http.headerNameStr n))
    (h : (RequestBuilder.new method url).withHeaders rqHeaders = .ok rq) :
    rq.method = method ∧ rq.url = url ∧ Headed http c rq := by
  unfold RequestBuilder.withHeaders RequestBuilder.new at h
  cases hbase : http.request url with
  | none =>
    rw [hbase] at h
    cases h
    refine ⟨rfl, rfl, fun base hb => ?_⟩
    cases hbase.symm.trans hb
  | some base =>
    simp only [hbase] at h
    split at h
    · rename_i rqHeaders' hreplace
      cases h
      refine ⟨rfl, rfl, fun base' hb => ⟨rqHeaders', rfl, fun n => ?_⟩⟩
      obtain rfl := Option.some.inj (hbase.symm.trans hb)
      rw [hhttp.get_replace hreplace, Option.map_or, hget]
    · cases h

theorem headers_ok (hv8 : v8.Terminates) (hhttp : http.Lawful) {method : http.Method}
    {rq : RequestBuilder http}
    (h : headers v8 get scope (.new method url) = .ok (rq, scope')) :
    scope' = scope ∧ rq.method = method ∧ rq.url = url ∧ Headed http (get "headers") rq := by
  rcases hcall : scope.call v8 (get "headers") with ⟨_ | headersK, scope₁⟩
  · simp [headers, hcall, orReturn, bind, Except.bind] at h
  have hs := Scope.terminating_of_call hv8 hcall
  obtain ⟨hget, rfl⟩ := Scope.call_some hs hcall
  rw [hget]
  cases headersK with
  | object string get' names =>
    rcases hnames : scope₁.call v8 names with ⟨_ | names', scope₂⟩
    · simp [headers, hcall, hnames, orReturn, bind, Except.bind] at h
    obtain ⟨rfl, rfl⟩ := Scope.call_some hs hnames
    simp only [headers, hcall, hnames, orReturn, bind, Except.bind] at h
    cases hloop : insertHeaders v8 get' names' scope₂ http.headerMapNew with
    | error outcome =>
      rw [hloop] at h
      cases h
    | ok result =>
      obtain ⟨rqHeaders, scope₃⟩ := result
      obtain rfl : scope₃ = scope₂ := by
        have hend := @insertHeaders_end v8 http scope₂ get' names' http.headerMapNew hs
        rw [hloop] at hend
        cases hend
        rfl
      have hmap := (get_insertHeaders hhttp hs hloop).2
      simp only [hhttp.get_new, Option.map_none, Option.or_none] at hmap
      simp only [hloop] at h
      cases hrq : (RequestBuilder.new method url).withHeaders rqHeaders with
      | error outcome =>
        rw [hrq] at h
        cases h
      | ok rq' =>
        rw [hrq] at h
        cases h
        exact ⟨rfl, withHeaders_ok hhttp hmap hrq⟩
  | undefined | null | primitive | symbol =>
    simp only [headers, hcall, orReturn, bind, Except.bind] at h
    cases h
    exact ⟨rfl, rfl, rfl, headed_new fun _ => rfl⟩

theorem afterMethod_sent (hv8 : v8.Terminates) (hhttp : http.Lawful) {method : http.Method}
    {rq : RequestBuilder http} {rv : Option Promise}
    (h : afterMethod v8 get url method scope = .returned scope' rv (some rq)) :
    rq.method = method ∧ rq.url = url ∧ Headed http (get "headers") rq := by
  unfold afterMethod at h
  have hend : scope.terminating = false → _ := @headers_end v8 http scope get url method
  cases hheaders : headers v8 get scope (.new method url) with
  | error outcome =>
    rw [hheaders] at h hend
    cases hs : scope.terminating with
    | true =>
      simp [headers, Scope.call, hs, hv8.call, orReturn, bind, Except.bind] at hheaders
      cases hheaders
      cases h
    | false =>
      obtain ⟨-⟩ | ⟨-⟩ | ⟨-⟩ | ⟨-⟩ := hend hs <;> cases h
  | ok result =>
    obtain ⟨rq', scope₁⟩ := result
    obtain ⟨rfl, hrq⟩ := headers_ok hv8 hhttp hheaders
    rw [hheaders] at h
    simp only [send] at h
    split at h
    · cases h
      exact hrq
    · cases h

def property (args : List JsValue) (name : String) : Completion JsValue :=
  match args.tail.headD .undefined with
  | .object _ get _ => get name
  | _ => .normal .undefined

structure Describes (http : Reqwest) (args : List JsValue) (rq : RequestBuilder http) : Prop where
  url : args.head?.map JsValue.toStr = some (.normal rq.url)
  method : some rq.method = wantedMethod http (property args "method")
  headers : Headed http (property args "headers") rq

def MethodGiven (args : List JsValue) : Prop :=
  match args.tail.headD .undefined with
  | .object _ get _ => ∃ v, get "method" = .normal v ∧ v ≠ .undefined
  | _ => True

theorem wantedMethod_of_converts {m : http.Method} {v : JsValue} (hc : c = .normal v)
    (h : Converts c (http.methodFromStr · = some m)) (hv : v ≠ .undefined) :
    wantedMethod http c = some m := by
  obtain ⟨s, hs, hm⟩ := h.text
  have hwanted : wantedMethod http c = (text c).bind http.methodFromStr := by
    subst hc
    cases v with
    | undefined => exact absurd rfl hv
    | null | primitive | symbol | object => rfl
  rw [hwanted, hs, Option.bind_some, hm]

theorem undefined_ne_get (hhttp : http.Lawful) {m : http.Method} (hc : c = .normal .undefined)
    (h : Converts c (http.methodFromStr · = some m)) : m ≠ http.GET := by
  rintro rfl
  have hm : http.methodFromStr "undefined" = some http.GET := (converts_iff hc rfl).mp h
  have hstr := (hhttp.method hm).symm.trans (hhttp.method hhttp.get)
  revert hstr
  decide

theorem withOptions_sent (hv8 : v8.Terminates) (hhttp : http.Lawful) {rq : RequestBuilder http}
    {rv : Option Promise}
    (h : withOptions v8 get url = .returned scope rv (some rq)) :
    rq.url = url ∧ Headed http (get "headers") rq ∧
      (some rq.method = wantedMethod http (get "method") ↔
        ∃ v, get "method" = .normal v ∧ v ≠ .undefined) := by
  have hend := @method_end v8 http get hv8 hhttp
  unfold withOptions at h
  generalize method v8 get {} = out at hend h
  cases hend with
  | @read m hread =>
    obtain ⟨hmethod, hurl, hheaders⟩ := afterMethod_sent hv8 hhttp h
    refine ⟨hurl, hheaders, ?_⟩
    obtain ⟨v, -, hv, -⟩ := id hread
    rw [hmethod]
    constructor
    · refine fun hwanted => ⟨v, hv, ?_⟩
      rintro rfl
      rw [hv] at hwanted
      exact undefined_ne_get hhttp hv hread (Option.some.inj hwanted)
    · rintro ⟨w, hw, hne⟩
      exact (wantedMethod_of_converts hw hread hne).symm
  | threw hthrew =>
    obtain ⟨-, hurl, hheaders⟩ := afterMethod_sent hv8 hhttp h
    refine ⟨hurl, hheaders, iff_of_false ?_ ?_⟩
    · simp [hthrew, wantedMethod, text]
    · simp [hthrew]
  | terminated =>
    simp only [afterMethod_termination hv8] at h
    cases h
  | rejected =>
    rw [reject_empty] at h
    cases h
  | panicked => cases h

/-- A request that is sent is the one that the arguments ask for, unless the options have no
method, or one that cannot be read. -/
theorem describes_iff (hv8 : v8.Terminates) (hhttp : http.Lawful) {args : List JsValue}
    {rq : RequestBuilder http} {rv : Option Promise}
    (h : fetch v8 http args = .returned scope rv (some rq)) :
    Describes http args rq ↔ MethodGiven args := by
  cases args with
  | nil => cases h
  | cons first rest =>
    cases hs : first.toStr with
    | normal s =>
      rw [fetch_of_call hs] at h
      have hproperty : ∀ name, property (first :: rest) name =
          match rest.headD .undefined with
          | .object _ get _ => get name
          | _ => .normal .undefined := fun _ => rfl
      have hgiven : MethodGiven (first :: rest) ↔
          match rest.headD .undefined with
          | .object _ get _ => ∃ v, get "method" = .normal v ∧ v ≠ .undefined
          | _ => True := Iff.rfl
      cases hoptions : rest.headD .undefined with
      | object string get names =>
        simp only [hoptions] at h hproperty hgiven
        obtain ⟨hurl, hheaders, hmethod⟩ := withOptions_sent hv8 hhttp h
        rw [hgiven, ← hmethod, ← hproperty]
        rw [← hproperty] at hheaders
        exact ⟨Describes.method, fun hm => ⟨by simp [hs, hurl], hm, hheaders⟩⟩
      | undefined | null | primitive | symbol =>
        simp only [hoptions] at h hproperty hgiven
        cases h
        refine iff_of_true ⟨by simp [hs, RequestBuilder.new], ?_, ?_⟩ (hgiven.mpr trivial)
        · rw [hproperty]
          rfl
        · rw [hproperty]
          exact headed_new fun _ => rfl
    | threw | terminated => simp [fetch, hs, Scope.call, Scope.terminating] at h

def posted : List JsValue :=
  [.primitive "https://b", plain [("method", .primitive "POST"),
    ("headers", plain [("A", .primitive "1"), ("a", .primitive "2")])]]

theorem describes_iff_posted : ∃ scope rv rq,
    fetch smallV8 smallHttp posted = .returned scope rv (some rq) ∧ Describes smallHttp posted rq :=
  ⟨_, _, _, rfl,
    (describes_iff smallV8_terminates smallHttp_lawful rfl).mpr ⟨.primitive "POST", rfl, by simp⟩⟩

theorem undefined_sent : ∃ rq, fetch smallV8 smallHttp [.primitive "https://b", plain []] =
      .returned {} (some .pending) (some rq) ∧ rq.method = "undefined" ∧
    ¬ Describes smallHttp [.primitive "https://b", plain []] rq := by
  refine ⟨⟨"undefined", "https://b", some []⟩, rfl, rfl, fun h => ?_⟩
  have hmethod : some "undefined" = some "GET" := h.method
  revert hmethod
  decide

end Fetch

end Serverlessd
