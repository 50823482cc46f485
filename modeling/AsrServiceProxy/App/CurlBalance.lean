import AsrServiceProxy.App.AsrProxyImpl.Theorems
import AsrServiceProxy.Utils.Http.Theorems
import AsrServiceProxy.Utils.StringUtil.Lemmas
import Mathlib.Data.Nat.Find

-- What the three callers of libcurl do with the handles and strings they obtain.
namespace AsrServiceProxy.App

open CMemory Http

inductive Invocation where
  | httpTalk (curl : Bool) (attempts : ℕ → Attempt) (request : HttpRequest) (response : HttpResponse)
  | httpsTalk (curl : Bool) (attempt : Attempt) (request : HttpRequest) (response : HttpResponse)
  | asrCall (reader : Json.Reader) (perform : Perform) (service : BdAsrService)
      (audio asrResult : Bytes)

def Invocation.ops : Invocation → List CurlOp
  | .httpTalk curl attempts request response => (Http.talk curl attempts request response).ops
  | .httpsTalk curl attempt request response => (Http.httpsTalk curl attempt request response).ops
  | .asrCall reader perform service audio asrResult =>
      (call reader perform service audio asrResult).ops

-- The handles and the escaped strings that are not given back.
structure Live where
  handles : ℤ
  strings : ℤ
deriving DecidableEq, Repr

def Live.apply (live : Live) : CurlOp → Live
  | .easyInit => { live with handles := live.handles + 1 }
  | .easyCleanup => { live with handles := live.handles - 1 }
  | .easyEscape => { live with strings := live.strings + 1 }
  | .free => { live with strings := live.strings - 1 }
  | .slistAppend | .slistFreeAll => live

def Live.run (live : Live) (calls : List Invocation) : Live :=
  (calls.flatMap Invocation.ops).foldl Live.apply live

-- Each handle and each string that is obtained is given back once.
def ReleasesOnce (ops : List CurlOp) : Prop :=
  ops.count .easyCleanup = ops.count .easyInit ∧ ops.count .free = ops.count .easyEscape

instance (ops : List CurlOp) : Decidable (ReleasesOnce ops) :=
  inferInstanceAs (Decidable (_ ∧ _))

-- The status line is taken from the text, which throws without it.
def HasStatus (strHeaders : Bytes) : Prop := StringUtil.find (ascii "HTTP") strHeaders ≠ none

-- What is trimmed of the text and the number of its lines are in the range of the counters.
structure Counts (strHeaders : Bytes) : Prop where
  text : StringUtil.Fits strHeaders
  lines : ∀ trimmed, StringUtil.spaceTrimAt strHeaders = .ok trimmed →
    (StringUtil.split trimmed 10).length < 2 ^ 32 ∧
      ∀ line ∈ StringUtil.split trimmed 10, StringUtil.EntryFits 58 line
  statusLine : ∀ line, StringUtil.substr strHeaders (StringUtil.find (ascii "HTTP") strHeaders)
    (StringUtil.find [13, 10] strHeaders) = .ok line → StringUtil.Fits line

def ReadsHeaders (strHeaders : Bytes) : Prop := HasStatus strHeaders ∧ Counts strHeaders

-- `result[0]` has a text: it is a scalar, or is missing.
def HasText : Json.Value → Prop
  | .nullValue => True
  | .objectValue members =>
      match members.lookup (ascii "result") with
      | none | some .nullValue | some (.arrayValue []) => True
      | some (.arrayValue (.arrayValue _ :: _)) | some (.arrayValue (.objectValue _ :: _)) => False
      | some (.arrayValue (_ :: _)) => True
      | some _ => False
  | _ => False

-- The condition on one invocation: no handle was obtained, or the method is
-- supported, the token is there, and the answer of a transfer that succeeded can be read.
def Invocation.Orderly : Invocation → Prop
  | .httpTalk curl attempts request response =>
      curl → Supported request.method ∧ ∀ k < 3, SucceedsAt attempts k →
        ReadsHeaders (response.strHeaders ++ headerBytes (priorCallbacks attempts (k + 1)))
  | .httpsTalk curl attempt request response =>
      curl → Supported request.method ∧ (attempt.code = .CURLE_OK →
        ReadsHeaders (response.strHeaders ++ headerBytes attempt.callbacks))
  | .asrCall reader perform service audio _ =>
      service.asrToken ≠ [] ∧
      ∀ chunks, perform
          { url := requestUrl service.conf service.asrToken
            header := requestHeader service.conf
            audio := audio } = (.CURLE_OK, chunks) →
        ∃ block, received chunks = some block ∧
          ∀ root, reader (cstr block.mem) = some root → HasText root

-- A text below 2^31 bytes is within the range.
theorem Counts.of_lt {strHeaders : Bytes} (h : strHeaders.length < 2 ^ 31) :
    Counts strHeaders where
  text := .of_lt h
  lines := by
    intro trimmed htrimmed
    rw [StringUtil.spaceTrimAt_of_lt h] at htrimmed
    obtain rfl := Except.ok.inj htrimmed
    have hlength := Strip.length_strip_le StringUtil.isspace strHeaders
    obtain ⟨hcount, hlines⟩ :=
      StringUtil.split_sizes (Strip.strip StringUtil.isspace strHeaders) 10
    exact ⟨by omega, fun line hline => .of_lt (by have := hlines line hline; omega)⟩
  statusLine := by
    intro line hline
    have hlength := StringUtil.length_substr_le hline
    exact .of_lt (by omega)

theorem buildHeaders_ok_iff (strHeaders : Bytes) :
    (∃ headers, buildHeadersFromStr strHeaders = .ok headers) ↔
      StringUtil.Fits strHeaders ∧
        ∀ trimmed, StringUtil.spaceTrimAt strHeaders = .ok trimmed →
          (StringUtil.split trimmed 10).length < 2 ^ 32 ∧
            ∀ line ∈ StringUtil.split trimmed 10, StringUtil.EntryFits 58 line := by
  rw [← StringUtil.spaceTrimAt_ok_iff]
  constructor
  · rintro ⟨headers, h⟩
    obtain ⟨trimmed, htrimmed, h⟩ := except_bind_ok h
    obtain ⟨map, hmap, -⟩ := except_bind_ok h
    refine ⟨⟨trimmed, htrimmed⟩, fun trimmed' htrimmed' => ?_⟩
    obtain rfl := Except.ok.inj (htrimmed.symm.trans htrimmed')
    exact (StringUtil.splitMap_ok_iff trimmed 10 58).mp ⟨map, hmap⟩
  · rintro ⟨⟨trimmed, htrimmed⟩, hlines⟩
    obtain ⟨map, hmap⟩ := (StringUtil.splitMap_ok_iff trimmed 10 58).mpr (hlines trimmed htrimmed)
    simp only [buildHeadersFromStr, htrimmed, hmap, bind, Except.bind]
    cases map <;> exact ⟨_, rfl⟩

theorem getStatusline_ok_iff (strHeaders : Bytes) :
    (∃ status, getStatuslineFromStr strHeaders = .ok status) ↔
      HasStatus strHeaders ∧
        ∀ line, StringUtil.substr strHeaders (StringUtil.find (ascii "HTTP") strHeaders)
          (StringUtil.find [13, 10] strHeaders) = .ok line → StringUtil.Fits line := by
  unfold getStatuslineFromStr HasStatus
  cases hpos : StringUtil.find (ascii "HTTP") strHeaders with
  | none => exact iff_of_false (fun ⟨_, h⟩ => by cases h) fun h => h.1 rfl
  | some pos =>
      obtain ⟨line, hline⟩ : ∃ line, StringUtil.substr strHeaders (some pos)
          (StringUtil.find [13, 10] strHeaders) = .ok line := by
        simp only [StringUtil.substr, if_neg (Nat.not_lt.mpr (StringUtil.find_le hpos))]
        split <;> exact ⟨_, rfl⟩
      rw [hline]
      refine (StringUtil.spaceTrimAt_ok_iff line).trans ?_
      simp

theorem readsHeaders_iff (strHeaders : Bytes) :
    ReadsHeaders strHeaders ↔
      (∃ headers, buildHeadersFromStr strHeaders = .ok headers) ∧
        ∃ status, getStatuslineFromStr strHeaders = .ok status := by
  rw [buildHeaders_ok_iff, getStatusline_ok_iff]
  exact ⟨fun ⟨hstatus, hcounts⟩ => ⟨⟨hcounts.text, hcounts.lines⟩, hstatus, hcounts.statusLine⟩,
    fun ⟨⟨htext, hlines⟩, hstatus, hline⟩ => ⟨hstatus, htext, hlines, hline⟩⟩

-- With the handle, the header list and all that is given back at the end.
theorem releasesOnce_of_cleanup (headers : StringUtil.Map) : ReleasesOnce
    ((CurlOp.easyInit :: headers.map fun _ => CurlOp.slistAppend) ++
      [.slistFreeAll, .easyCleanup]) := by
  constructor
  · simp [List.count_replicate]
  · simp [List.count_replicate]

theorem not_releasesOnce_of_leak (headers : StringUtil.Map) :
    ¬ReleasesOnce (CurlOp.easyInit :: headers.map fun _ => CurlOp.slistAppend) := by
  intro h
  have hcount := h.1
  simp [List.count_replicate] at hcount

-- The end of both `talk`s: after a transfer that succeeded, all hangs on the header text.
theorem releasesOnce_finish_iff (headers : StringUtil.Map) (response : HttpResponse)
    (httpCode : ℤ) :
    ReleasesOnce (finish response (.easyInit :: headers.map fun _ => CurlOp.slistAppend)
      httpCode).ops ↔ ReadsHeaders response.strHeaders := by
  rw [readsHeaders_iff, finish]
  cases hheaders : buildHeadersFromStr response.strHeaders with
  | error e => exact iff_of_false (not_releasesOnce_of_leak headers) fun ⟨⟨_, h⟩, _⟩ => by cases h
  | ok map =>
      dsimp only
      cases hstatus : getStatuslineFromStr response.strHeaders with
      | error e =>
          exact iff_of_false (not_releasesOnce_of_leak headers) fun ⟨_, ⟨_, h⟩⟩ => by cases h
      | ok status => exact iff_of_true (releasesOnce_of_cleanup headers) ⟨⟨_, rfl⟩, ⟨_, rfl⟩⟩

-- When no attempt succeeds the last one has failed.
theorem talkLoop_of_failures (attempts : ℕ → Attempt) (tries i : ℕ) (s : Session)
    (hfail : ∀ j, i ≤ j → j < i + tries → (attempts j).code ≠ .CURLE_OK)
    (hlast : tries = 0 → (attempts (i - 1)).code ≠ .CURLE_OK) :
    (talkLoop attempts tries i s).2.code ≠ .CURLE_OK := by
  induction tries generalizing i s with
  | zero => exact hlast rfl
  | succ tries ih =>
      have hi := hfail i le_rfl (by omega)
      simp only [talkLoop, hi, ite_false]
      apply ih
      · intro j hle hlt
        exact hfail j (by omega) (by omega)
      · intro _
        exact hi

theorem exists_succeedsAt (attempts : ℕ → Attempt) {j : ℕ} (h : (attempts j).code = .CURLE_OK) :
    ∃ k ≤ j, SucceedsAt attempts k := by
  have hex : ∃ i, (attempts i).code = .CURLE_OK := ⟨j, h⟩
  exact ⟨Nat.find hex, Nat.find_min' hex h, Nat.find_spec hex, fun i hi => Nat.find_min hex hi⟩

theorem succeedsAt_unique (attempts : ℕ → Attempt) {j k : ℕ} (hj : SucceedsAt attempts j)
    (hk : SucceedsAt attempts k) : j = k := by
  rcases Nat.lt_trichotomy j k with hlt | heq | hgt
  · exact absurd hj.1 (hk.2 j hlt)
  · exact heq
  · exact absurd hk.1 (hj.2 k hgt)

-- The headers of the response when attempt `k` is over.
theorem strHeaders_after (attempts : ℕ → Attempt) (request : HttpRequest)
    (response : HttpResponse) (k : ℕ) :
    (sessionBefore attempts (start request response) k).response.strHeaders =
      response.strHeaders ++ headerBytes (priorCallbacks attempts k) := by
  rw [sessionBefore_eq]
  exact (callbacks_effect (priorCallbacks attempts k) (start request response)).2.1

theorem talk_releasesOnce_iff (curl : Bool) (attempts : ℕ → Attempt) (request : HttpRequest)
    (response : HttpResponse) :
    ReleasesOnce (Http.talk curl attempts request response).ops ↔
      (Invocation.httpTalk curl attempts request response).Orderly := by
  simp only [Invocation.Orderly]
  cases curl with
  | false => simp [talk, ReleasesOnce]
  | true =>
      by_cases hm : Supported request.method
      · simp only [hm, true_and, forall_const]
        by_cases hs : ∃ k < 3, SucceedsAt attempts k
        · obtain ⟨k, hlt, hk⟩ := hs
          have hloop := talkLoop_of_succeeds attempts (start request response) hk 3 0
            (by omega) (by omega)
          simp only [sessionBefore] at hloop
          simp only [talk, hm, hloop, hk.1, not_true_eq_false, ite_false, ite_true]
          refine (releasesOnce_finish_iff request.headers _ _).trans ?_
          rw [← sessionBefore, strHeaders_after]
          constructor
          · intro h j _ hj
            rw [succeedsAt_unique attempts hj hk]
            exact h
          · intro h
            exact h k hlt hk
        · have hfail : (talkLoop attempts 3 0 (start request response)).2.code ≠ .CURLE_OK := by
            apply talkLoop_of_failures
            · intro j _ hlt hok
              obtain ⟨k, hle, hk⟩ := exists_succeedsAt attempts hok
              exact hs ⟨k, by omega, hk⟩
            · intro h
              omega
          simp only [talk, hm, hfail, not_true_eq_false, ite_false]
          have hnone : ∀ k < 3, SucceedsAt attempts k → ReadsHeaders
              (response.strHeaders ++ headerBytes (priorCallbacks attempts (k + 1))) := by
            intro k hlt hk
            exact absurd ⟨k, hlt, hk⟩ hs
          exact iff_of_true (releasesOnce_of_cleanup request.headers) hnone
      · simp [talk, hm, ReleasesOnce]

theorem httpsTalk_releasesOnce_iff (curl : Bool) (attempt : Attempt) (request : HttpRequest)
    (response : HttpResponse) :
    ReleasesOnce (Http.httpsTalk curl attempt request response).ops ↔
      (Invocation.httpsTalk curl attempt request response).Orderly := by
  simp only [Invocation.Orderly]
  cases curl with
  | false => simp [httpsTalk, ReleasesOnce]
  | true =>
      by_cases hm : Supported request.method
      · by_cases hok : attempt.code = .CURLE_OK
        · simp only [httpsTalk, hm, hok, not_true_eq_false, ite_false, ite_true, true_and,
            forall_const]
          refine (releasesOnce_finish_iff request.headers _ _).trans ?_
          have heffect := callbacks_effect attempt.callbacks (start request response)
          rw [Session.perform, heffect.2.1]
          rfl
        · simp only [httpsTalk, hm, hok, not_true_eq_false, ite_false]
          have hcleanup := releasesOnce_of_cleanup request.headers
          simpa using hcleanup
      · simp [httpsTalk, hm, ReleasesOnce]

theorem hasText_iff (root : Json.Value) : HasText root ↔ ∃ text, firstText root = .ok text := by
  cases root with
  | objectValue members =>
      have hfirst : firstText (.objectValue members) =
          (((members.lookup (ascii "result")).getD .nullValue).element 0 >>=
            Json.Value.asString) := rfl
      rw [hfirst]
      simp only [HasText]
      cases hl : members.lookup (ascii "result") with
      | none => simp [Json.Value.element, Json.Value.asString, bind, Except.bind]
      | some result =>
          cases result with
          | arrayValue elements =>
              cases elements with
              | nil => simp [Json.Value.element, Json.Value.asString, bind, Except.bind]
              | cons first rest =>
                  cases first <;>
                    simp [Json.Value.element, Json.Value.asString, bind, Except.bind]
          | nullValue => simp [Json.Value.element, Json.Value.asString, bind, Except.bind]
          | _ => simp [Json.Value.element, bind, Except.bind]
  | nullValue =>
      simp [HasText, firstText, Json.Value.member, Json.Value.element, Json.Value.asString, bind,
        Except.bind]
  | _ => simp [HasText, firstText, Json.Value.member, bind, Except.bind]

-- `handle_asr_result` returns unless nothing was received or the text is out of reach.
theorem handleAsrResult_ok_iff (reader : Json.Reader) (result : Option Block)
    (asrResult : Bytes) :
    (∃ handled, handleAsrResult reader (result.map Block.mem) asrResult = .ok handled) ↔
      ∃ block, result = some block ∧ ∀ root, reader (cstr block.mem) = some root → HasText root := by
  cases result with
  | none => simp [handleAsrResult, stdString, bind, Except.bind]
  | some block =>
      cases hr : reader (cstr block.mem) with
      | none =>
          simp [handleAsrResult, stdString, loadJson, hr, bind, Except.bind, pure, Except.pure]
      | some root =>
          simp only [Option.map_some, handleAsrResult_of_root reader block.mem root hr asrResult,
            Option.some.injEq, exists_eq_left', forall_eq', hr, hasText_iff]
          cases firstText root <;> simp

theorem call_releasesOnce_iff (reader : Json.Reader) (perform : Perform) (service : BdAsrService)
    (audio asrResult : Bytes) :
    ReleasesOnce (call reader perform service audio asrResult).ops ↔
      (Invocation.asrCall reader perform service audio asrResult).Orderly := by
  simp only [Invocation.Orderly]
  by_cases ht : service.asrToken = []
  · have hurl : buildUrl service.conf [] = none := rfl
    simp only [call, hurl, ne_eq, ht, not_true_eq_false, false_and, iff_false]
    decide
  · have hurl : buildUrl service.conf service.asrToken =
        some (requestUrl service.conf service.asrToken) := by simp [buildUrl, ht]
    simp only [call, hurl, ne_eq, ht, not_false_eq_true, true_and]
    rcases perform _ with ⟨code, chunks⟩
    by_cases hok : code = .CURLE_OK
    · subst code
      simp only [not_true_eq_false, ite_false, Prod.mk.injEq, true_and, forall_eq']
      rw [← handleAsrResult_ok_iff reader (received chunks) asrResult]
      cases handleAsrResult reader ((received chunks).map Block.mem) asrResult with
      | error e =>
          simp only [reduceCtorEq, exists_false, iff_false]
          decide
      | ok handled =>
          simp only [Except.ok.injEq, exists_eq', iff_true]
          decide
    · simp only [hok, not_false_eq_true, ite_true, Prod.mk.injEq, false_and, false_implies,
        implies_true, iff_true]
      decide

theorem releasesOnce_iff_orderly (c : Invocation) : ReleasesOnce c.ops ↔ c.Orderly := by
  cases c with
  | httpTalk curl attempts request response =>
      exact talk_releasesOnce_iff curl attempts request response
  | httpsTalk curl attempt request response =>
      exact httpsTalk_releasesOnce_iff curl attempt request response
  | asrCall reader perform service audio asrResult =>
      exact call_releasesOnce_iff reader perform service audio asrResult

-- What a list of operations adds to the live handles and strings.
theorem foldl_apply (ops : List CurlOp) (live : Live) :
    ops.foldl Live.apply live =
      { handles := live.handles + ops.count .easyInit - ops.count .easyCleanup
        strings := live.strings + ops.count .easyEscape - ops.count .free } := by
  induction ops generalizing live with
  | nil => simp
  | cons op ops ih =>
      rw [List.foldl_cons, ih]
      cases op <;> simp [Live.apply] <;> omega

-- Whatever runs before and after an orderly call, the live handles and strings
-- are what they were.
theorem run_of_orderly (calls : List Invocation) (h : ∀ c ∈ calls, c.Orderly) (before : Live) :
    before.run calls = before := by
  induction calls generalizing before with
  | nil => rfl
  | cons c calls ih =>
      obtain ⟨hhandles, hstrings⟩ := (releasesOnce_iff_orderly c).mpr (h c List.mem_cons_self)
      have hrest : before.run (c :: calls) = (c.ops.foldl Live.apply before).run calls := by
        simp [Live.run]
      rw [hrest, foldl_apply, hhandles, hstrings]
      have hsame : Live.mk (before.handles + c.ops.count .easyInit - c.ops.count .easyInit)
          (before.strings + c.ops.count .easyEscape - c.ops.count .easyEscape) = before := by
        simp
      rw [hsame]
      exact ih (fun c' hc' => h c' (List.mem_cons_of_mem c hc')) before

-- Every call of a sequence gives back what it obtains, and so leaves the counts
-- alone, exactly when every call is orderly.
theorem calls_balanced_iff (calls : List Invocation) (before : Live) :
    ((∀ c ∈ calls, ReleasesOnce c.ops) ∧ before.run calls = before) ↔
      ∀ c ∈ calls, c.Orderly := by
  constructor
  · intro h c hc
    exact (releasesOnce_iff_orderly c).mp (h.1 c hc)
  · intro h
    constructor
    · intro c hc
      exact (releasesOnce_iff_orderly c).mpr (h c hc)
    · exact run_of_orderly calls h before

def patchRequest : HttpRequest :=
  { method := .METHOD_PATCH, headers := [], body := [] }

-- The handle of a PATCH request stays alive.
theorem calls_unbalanced :
    ¬∀ (calls : List Invocation) (before : Live),
      (∀ c ∈ calls, ReleasesOnce c.ops) ∧ before.run calls = before := by
  intro hall
  have hrun := (hall [.httpTalk true (fun _ => answeredAttempt) patchRequest .empty] ⟨0, 0⟩).2
  exact absurd hrun (by decide)

end AsrServiceProxy.App
