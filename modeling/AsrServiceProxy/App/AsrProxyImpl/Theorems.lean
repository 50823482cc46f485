import AsrServiceProxy.App.AsrProxyImpl
import AsrServiceProxy.App.Writefunc.Theorems

namespace AsrServiceProxy.App

open CMemory

-- The reply `asr` makes of what `handle_asr_result` returned.
def reply : Except Exn (ReturnCode × Bytes) → Except Exn AsrResponse
  | .error e => .error e
  | .ok (.RETURN_OK, text) => .ok { code := 0, msg := cstr text }
  | .ok (_, _) => .ok { code := -1, msg := ascii "asr call failed!" }

theorem asr_eq_reply (reader : Json.Reader) (chunks : List Chunk) (service : BdAsrService)
    (audio : Bytes) (ht : service.asrToken ≠ []) :
    asr reader (fun _ => (.CURLE_OK, chunks)) (some service) audio =
      reply (handleAsrResult reader ((received chunks).map Block.mem) []) := by
  have hurl : buildUrl service.conf service.asrToken =
      some (requestUrl service.conf service.asrToken) := by simp [buildUrl, ht]
  simp only [asr, call, hurl, ne_eq, not_true_eq_false, ite_false]
  cases he : handleAsrResult reader ((received chunks).map Block.mem) [] with
  | error e => simp [reply]
  | ok pair =>
      obtain ⟨handled, text⟩ := pair
      cases handled <;> simp [reply, ReturnCode.toInt]

-- The text that `result[0]` is read as, with the exception of the first
-- operator that meets a value of another type.
def firstText (root : Json.Value) : Except Exn Bytes := do
  let result ← root.member (ascii "result")
  let first ← result.element 0
  first.asString

theorem handleAsrResult_of_root (reader : Json.Reader) (mem : Bytes) (root : Json.Value)
    (hr : reader (cstr mem) = some root) (asrResult : Bytes) :
    handleAsrResult reader (some mem) asrResult =
      match firstText root with
      | .error e => .error e
      | .ok text => .ok (if text = [] then .RETURN_ERROR else .RETURN_OK, text) := by
  simp only [handleAsrResult, stdString, loadJson, hr, firstText, bind, Except.bind]
  cases hm : root.member (ascii "result") with
  | error e => simp
  | ok result =>
      cases he : result.element 0 with
      | error e => simp [he]
      | ok first =>
          cases ha : first.asString with
          | error e => simp [he, ha]
          | ok text => cases text <;> simp [he, ha, pure, Except.pure]

-- The value of `result[0]` decides alone: its text is cut at a NUL by `set_msg`,
-- and an array or object has no text.
theorem replies_of_first (reader : Json.Reader) (body : Bytes) (first : Json.Value) :
    Replies reader body (reply (match first.asString with
      | .error e => .error e
      | .ok text => .ok (if text = [] then .RETURN_ERROR else .RETURN_OK, text))) ↔
      ∃ text, first.asString = .ok text ∧ Kept reader body text := by
  cases ha : first.asString with
  | error e => simp [reply, Replies]
  | ok text =>
      by_cases ht : text = []
      · simp [ht, reply, Replies, Kept]
      · simp [ht, reply, Replies, Kept]

-- A missing, null or empty `result` reads as the empty text, which is an error
-- reply; any other value that is no array throws.
theorem replies_of_object (reader : Json.Reader) (body : Bytes)
    (members : List (Bytes × Json.Value)) :
    Replies reader body (reply (match firstText (.objectValue members) with
      | .error e => .error e
      | .ok text => .ok (if text = [] then .RETURN_ERROR else .RETURN_OK, text))) ↔
      Readable reader body (.objectValue members) := by
  have hfirst : firstText (.objectValue members) =
      (((members.lookup (ascii "result")).getD .nullValue).element 0 >>= Json.Value.asString) := rfl
  rw [hfirst]
  simp only [Readable]
  cases hl : members.lookup (ascii "result") with
  | none => simp [Json.Value.element, Json.Value.asString, bind, Except.bind, reply, Replies]
  | some result =>
      cases result with
      | arrayValue elements =>
          cases elements with
          | nil => simp [Json.Value.element, Json.Value.asString, bind, Except.bind, reply, Replies]
          | cons first rest => exact replies_of_first reader body first
      | nullValue =>
          simp [Json.Value.element, Json.Value.asString, bind, Except.bind, reply, Replies]
      | _ => simp [Json.Value.element, bind, Except.bind, reply, Replies]

theorem replies_of_root (reader : Json.Reader) (mem body : Bytes) (root : Json.Value)
    (hr : reader (cstr mem) = some root) :
    Replies reader body (reply (handleAsrResult reader (some mem) [])) ↔
      Readable reader body root := by
  rw [handleAsrResult_of_root reader mem root hr []]
  cases root with
  | objectValue members => exact replies_of_object reader body members
  | nullValue =>
      simp [firstText, Json.Value.member, Json.Value.element, Json.Value.asString, bind,
        Except.bind, reply, Replies, Readable]
  | _ => simp [firstText, Json.Value.member, bind, Except.bind, reply, Replies, Readable]

theorem replies_iff_gathered (reader : Json.Reader) (chunks : List Chunk) (service : BdAsrService)
    (audio : Bytes) (ht : service.asrToken ≠ []) (hlen : (delivered chunks).length + 1 < 2 ^ 64) :
    Replies reader (delivered chunks)
        (asr reader (fun _ => (.CURLE_OK, chunks)) (some service) audio) ↔
      ∃ text, gathered chunks = some text ∧
        ∀ root, reader text = some root → Readable reader (delivered chunks) root := by
  rw [asr_eq_reply reader chunks service audio ht]
  have hg := received_gathers chunks hlen
  cases hb : received chunks with
  | none =>
      rw [hb] at hg
      cases hc : gathered chunks with
      | none => simp [handleAsrResult, stdString, bind, Except.bind, reply, Replies]
      | some text =>
          rw [hc] at hg
          exact hg.elim
  | some block =>
      rw [hb] at hg
      cases hc : gathered chunks with
      | none =>
          rw [hc] at hg
          exact hg.elim
      | some text =>
          rw [hc] at hg
          have htext : cstr block.mem = text := hg.cstr_eq
          simp only [Option.map_some, Option.some.injEq, exists_eq_left']
          cases hr : reader text with
          | none =>
              simp [handleAsrResult, stdString, loadJson, htext, hr, bind, Except.bind, pure,
                Except.pure, reply, Replies]
          | some root =>
              rw [replies_of_root reader block.mem (delivered chunks) root (htext ▸ hr)]
              simp

-- For a body without NUL bytes only the text itself can be cut.
theorem kept_iff_of_plain {reader : Json.Reader} {body text : Bytes}
    (h : resultText reader body = some text) : Kept reader body text ↔ 0 ∉ text := by
  rw [Kept, h, Option.some.injEq, ← cstr_eq_self_iff]
  constructor
  · intro h
    rcases h with rfl | ⟨_, he⟩
    · rfl
    · exact he.symm
  · intro he
    rw [he]
    by_cases ht : text = []
    · exact Or.inl ht
    · exact Or.inr ⟨ht, rfl⟩

-- A body without NUL bytes is read as it was sent.
theorem replies_iff_of_plain (reader : Json.Reader) (chunks : List Chunk) (service : BdAsrService)
    (audio : Bytes) (ht : service.asrToken ≠ []) (hne : chunks ≠ [])
    (hs : ∀ c ∈ chunks, c.heap.Succeeds) (hlen : (delivered chunks).length + 1 < 2 ^ 64)
    (hz : 0 ∉ delivered chunks) :
    Replies reader (delivered chunks)
        (asr reader (fun _ => (.CURLE_OK, chunks)) (some service) audio) ↔
      ∀ root, reader (delivered chunks) = some root → Readable reader (delivered chunks) root := by
  rw [replies_iff_gathered reader chunks service audio ht hlen, gathered_of_plain chunks hne hs hz]
  simp

-- With CURLE_OK, `asr` replies exactly when the transfer gathered a text that is
-- no JSON, or JSON of a shape that `handle_asr_result` can read.
theorem asr_replies_iff (reader : Json.Reader) (chunks : List Chunk)
    (service : Option BdAsrService) (audio : Bytes)
    (hlen : (delivered chunks).length + 1 < 2 ^ 64) :
    Replies reader (delivered chunks) (asr reader (fun _ => (.CURLE_OK, chunks)) service audio) ↔
      ∀ svc, service = some svc → svc.asrToken ≠ [] →
        ∃ text, gathered chunks = some text ∧
          ∀ root, reader text = some root → Readable reader (delivered chunks) root := by
  cases service with
  | none => simp [asr, Replies]
  | some svc =>
      by_cases ht : svc.asrToken = []
      · simp [asr, call, buildUrl, ht, Replies, ReturnCode.toInt]
      · rw [replies_iff_gathered reader chunks svc audio ht hlen]
        simp [ht]

def tokenService : BdAsrService :=
  { conf :=
      { appKey := [], appSecretKey := [], asrServer := [], audioFormat := [], audioType := 1537 }
    asrToken := ascii "token" }

-- An answer whose `result[0]` is the text `hi`.
def answerReader : Json.Reader := fun body =>
  if body = ascii "\x7b\"result\":[\"hi\"]\x7d" then
    some (.objectValue [(ascii "result", .arrayValue [.stringValue (ascii "hi")])])
  else none

theorem asr_replies_to_answer :
    Replies answerReader (ascii "\x7b\"result\":[\"hi\"]\x7d")
      (asr answerReader
        (fun _ => (.CURLE_OK, [⟨zeroed, ascii "\x7b\"result\":"⟩, ⟨zeroed, ascii "[\"hi\"]\x7d"⟩]))
        (some tokenService) (ascii "audio")) := by
  refine (asr_replies_iff answerReader
    [⟨zeroed, ascii "\x7b\"result\":"⟩, ⟨zeroed, ascii "[\"hi\"]\x7d"⟩] (some tokenService)
    (ascii "audio") (by decide)).mpr ?_
  rintro _ _ _
  refine ⟨ascii "\x7b\"result\":[\"hi\"]\x7d", by decide, ?_⟩
  intro root hroot
  obtain rfl : .objectValue [(ascii "result", .arrayValue [.stringValue (ascii "hi")])] = root := by
    simpa [answerReader] using hroot
  exact ⟨ascii "hi", rfl, .inr ⟨by decide, rfl⟩⟩

-- An empty body: `result` stays NULL and the conversion to `std::string` throws.
theorem asr_escapes_on_empty_body :
    ¬∀ (reader : Json.Reader) (chunks : List Chunk) (service : Option BdAsrService)
        (audio : Bytes),
      Replies reader (delivered chunks)
        (asr reader (fun _ => (.CURLE_OK, chunks)) service audio) := by
  intro hall
  obtain ⟨response, he, _⟩ := hall (fun _ => none) [] (some tokenService) []
  have hthrow : asr (fun _ => none) (fun _ => (.CURLE_OK, [])) (some tokenService) [] =
      .error (.stdLogicError "basic_string::_M_construct null not valid") := rfl
  rw [hthrow] at he
  cases he

end AsrServiceProxy.App
