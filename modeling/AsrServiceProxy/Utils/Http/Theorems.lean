import AsrServiceProxy.Utils.Http
import Mathlib.Algebra.BigOperators.Group.List.Basic

namespace AsrServiceProxy.Http

open CMemory

def bodyBytes : List Callback → Bytes
  | [] => []
  | .readBody bytes :: rest => bytes ++ bodyBytes rest
  | _ :: rest => bodyBytes rest

def headerBytes : List Callback → Bytes
  | [] => []
  | .readHeaders bytes :: rest => bytes ++ headerBytes rest
  | _ :: rest => headerBytes rest

-- The number of request body bytes that libcurl asks `write_body` for.
def askedBytes : List Callback → ℕ
  | [] => 0
  | .writeBody count :: rest => count + askedBytes rest
  | _ :: rest => askedBytes rest

-- What `write_body` returns to a sequence of calls.
def BodyStream.serve (stream : BodyStream) : List ℕ → Bytes
  | [] => []
  | count :: rest => (stream.writeBody count).1 ++ (stream.writeBody count).2.serve rest

-- What is still to be had from the stream.
def BodyStream.offered (stream : BodyStream) : Bytes := if stream.good then stream.rest else []

theorem writeBody_offered (stream : BodyStream) (count : ℕ) :
    (stream.writeBody count).2.offered = stream.offered.drop count := by
  by_cases hg : stream.good
  · by_cases hc : count ≤ stream.rest.length
    · simp [BodyStream.writeBody, BodyStream.offered, hg, hc]
    · have hd : stream.rest.drop count = [] := List.drop_eq_nil_of_le (by omega)
      simp [BodyStream.writeBody, BodyStream.offered, hg, hc, hd]
  · simp [BodyStream.writeBody, BodyStream.offered, hg]

theorem writeBody_fst (stream : BodyStream) (count : ℕ) :
    (stream.writeBody count).1 = stream.offered.take count := by
  by_cases hg : stream.good <;> simp [BodyStream.writeBody, BodyStream.offered, hg]

theorem serve_eq_take (stream : BodyStream) (counts : List ℕ) :
    stream.serve counts = stream.offered.take counts.sum := by
  induction counts generalizing stream with
  | nil => simp [BodyStream.serve]
  | cons count rest ih =>
      rw [BodyStream.serve, ih, writeBody_fst, writeBody_offered, List.sum_cons, List.take_add]

theorem serve_complete_iff (stream : BodyStream) (body : Bytes) :
    (∀ counts, stream.serve counts = body.take counts.sum) ↔ stream.offered = body := by
  constructor
  · intro h
    have hall := h [stream.offered.length + body.length]
    rw [serve_eq_take] at hall
    simpa [List.take_of_length_le] using hall
  · rintro rfl counts
    exact serve_eq_take stream counts

-- The callbacks append to the response and consume the stream.
theorem callbacks_effect (callbacks : List Callback) (s : Session) :
    (callbacks.foldl Session.callback s).response.body = s.response.body ++ bodyBytes callbacks ∧
    (callbacks.foldl Session.callback s).response.strHeaders =
      s.response.strHeaders ++ headerBytes callbacks ∧
    (callbacks.foldl Session.callback s).stream.offered =
      s.stream.offered.drop (askedBytes callbacks) := by
  induction callbacks generalizing s with
  | nil => simp [bodyBytes, headerBytes, askedBytes]
  | cons e rest ih =>
      obtain ⟨hb, hh, ho⟩ := ih (s.callback e)
      rw [List.foldl_cons, hb, hh, ho]
      cases e with
      | writeBody count =>
          simp [Session.callback, bodyBytes, headerBytes, askedBytes, writeBody_offered,
            List.drop_drop]
      | readBody bytes => simp [Session.callback, bodyBytes, headerBytes, askedBytes]
      | readHeaders bytes => simp [Session.callback, bodyBytes, headerBytes, askedBytes]

theorem bodyBytes_append (xs ys : List Callback) :
    bodyBytes (xs ++ ys) = bodyBytes xs ++ bodyBytes ys := by
  induction xs with
  | nil => rfl
  | cons e xs ih => cases e <;> simp [bodyBytes, ih]

theorem headerBytes_append (xs ys : List Callback) :
    headerBytes (xs ++ ys) = headerBytes xs ++ headerBytes ys := by
  induction xs with
  | nil => rfl
  | cons e xs ih => cases e <;> simp [headerBytes, ih]

theorem askedBytes_append (xs ys : List Callback) :
    askedBytes (xs ++ ys) = askedBytes xs + askedBytes ys := by
  induction xs with
  | nil => simp [askedBytes]
  | cons e xs ih => cases e <;> simp [askedBytes, ih, Nat.add_assoc]

-- The session when attempt `k` begins.
def sessionBefore (attempts : ℕ → Attempt) (s : Session) : ℕ → Session
  | 0 => s
  | k + 1 => (sessionBefore attempts s k).perform (attempts k)

def priorCallbacks (attempts : ℕ → Attempt) (k : ℕ) : List Callback :=
  (List.range k).flatMap fun i => (attempts i).callbacks

theorem sessionBefore_eq (attempts : ℕ → Attempt) (s : Session) (k : ℕ) :
    sessionBefore attempts s k = (priorCallbacks attempts k).foldl Session.callback s := by
  induction k with
  | zero => rfl
  | succ k ih =>
      simp [sessionBefore, ih, priorCallbacks, List.range_succ, List.flatMap_append,
        Session.perform]

-- The earlier attempts delivered and asked for nothing exactly when none of them did.
theorem priorCallbacks_silent_iff (attempts : ℕ → Attempt) (request : HttpRequest) (k : ℕ) :
    (bodyBytes (priorCallbacks attempts k) = [] ∧ headerBytes (priorCallbacks attempts k) = [] ∧
        (request.body = [] ∨ askedBytes (priorCallbacks attempts k) = 0)) ↔
      ∀ i < k, bodyBytes (attempts i).callbacks = [] ∧ headerBytes (attempts i).callbacks = [] ∧
        (request.body = [] ∨ askedBytes (attempts i).callbacks = 0) := by
  induction k with
  | zero => simp [priorCallbacks, bodyBytes, headerBytes, askedBytes]
  | succ k ih =>
      have hsplit : priorCallbacks attempts (k + 1) =
          priorCallbacks attempts k ++ (attempts k).callbacks := by
        simp [priorCallbacks, List.range_succ, List.flatMap_append]
      rw [Nat.forall_lt_succ_right, ← ih, hsplit, bodyBytes_append, headerBytes_append,
        askedBytes_append, List.append_eq_nil_iff, List.append_eq_nil_iff, Nat.add_eq_zero_iff]
      tauto

-- The first attempt that succeeds is number `k`.
def SucceedsAt (attempts : ℕ → Attempt) (k : ℕ) : Prop :=
  (attempts k).code = .CURLE_OK ∧ ∀ i < k, (attempts i).code ≠ .CURLE_OK

theorem talkLoop_of_succeeds (attempts : ℕ → Attempt) (s : Session) {k : ℕ}
    (hk : SucceedsAt attempts k) (tries i : ℕ) (hi : i ≤ k) (ht : k < i + tries) :
    talkLoop attempts tries i (sessionBefore attempts s i) =
      (sessionBefore attempts s (k + 1), attempts k) := by
  induction tries generalizing i with
  | zero => omega
  | succ tries ih =>
      by_cases he : i = k
      · subst i
        simp [talkLoop, hk.1, sessionBefore]
      · have hf := hk.2 i (by omega)
        simp only [talkLoop, hf, ite_false]
        exact ih (i + 1) (by omega) (by omega)

-- Setting headers and status leaves the delivered bytes alone, also when the
-- status line is missing and the call throws.
theorem finish_response (response : HttpResponse) (ops : List CurlOp) (httpCode : ℤ) :
    (finish response ops httpCode).response.body = response.body ∧
      (finish response ops httpCode).response.strHeaders = response.strHeaders := by
  unfold finish
  cases buildHeadersFromStr response.strHeaders with
  | error e => exact ⟨rfl, rfl⟩
  | ok headers =>
      dsimp only
      cases getStatuslineFromStr response.strHeaders <;> exact ⟨rfl, rfl⟩

theorem talk_response_of_succeeds (attempts : ℕ → Attempt) (request : HttpRequest)
    (response : HttpResponse) (hm : Supported request.method) {k : ℕ}
    (hk : SucceedsAt attempts k) (hlt : k < 3) :
    (talk true attempts request response).response.body =
      (sessionBefore attempts (start request response) (k + 1)).response.body ∧
    (talk true attempts request response).response.strHeaders =
      (sessionBefore attempts (start request response) (k + 1)).response.strHeaders := by
  have hloop := talkLoop_of_succeeds attempts (start request response) hk 3 0 (by omega) (by omega)
  simp only [sessionBefore] at hloop
  simp only [talk, hm, hloop, hk.1, not_true_eq_false, ite_false, ite_true]
  exact finish_response _ _ _

-- What a caller of `talk` relies on when attempt `k` succeeded: the response
-- holds the bytes of that attempt, and the attempt could read the whole body.
def Isolated (attempts : ℕ → Attempt) (request : HttpRequest) (k : ℕ) : Prop :=
  (talk true attempts request .empty).response.body = bodyBytes (attempts k).callbacks ∧
  (talk true attempts request .empty).response.strHeaders = headerBytes (attempts k).callbacks ∧
  ∀ counts, (sessionBefore attempts (start request .empty) k).stream.serve counts =
    request.body.take counts.sum

theorem drop_eq_self_iff (count : ℕ) (bytes : Bytes) :
    bytes.drop count = bytes ↔ bytes = [] ∨ count = 0 := by
  constructor
  · intro h
    have hl := congrArg List.length h
    rw [List.length_drop] at hl
    by_cases hz : count = 0
    · exact Or.inr hz
    · exact Or.inl (List.length_eq_zero_iff.mp (by omega))
  · rintro (rfl | rfl) <;> simp

-- An attempt that succeeds after failed ones is isolated exactly when the
-- failed ones delivered nothing and read nothing of a body that has bytes.
theorem talk_isolated_iff (attempts : ℕ → Attempt) (request : HttpRequest)
    (hm : Supported request.method) (k : ℕ) (hlt : k < 3) (hk : SucceedsAt attempts k) :
    Isolated attempts request k ↔
      ∀ i < k, bodyBytes (attempts i).callbacks = [] ∧ headerBytes (attempts i).callbacks = [] ∧
        (request.body = [] ∨ askedBytes (attempts i).callbacks = 0) := by
  obtain ⟨hbody, hheaders⟩ := talk_response_of_succeeds attempts request .empty hm hk hlt
  obtain ⟨hb, hh, ho⟩ := callbacks_effect (priorCallbacks attempts k) (start request .empty)
  obtain ⟨hb', hh', _⟩ := callbacks_effect (attempts k).callbacks
    (sessionBefore attempts (start request .empty) k)
  have hstart : (start request .empty).stream.offered = request.body := by
    simp [start, BodyStream.offered]
  rw [← sessionBefore_eq] at hb hh ho
  rw [hstart] at ho
  change (sessionBefore attempts (start request .empty) (k + 1)).response.body = _ at hb'
  change (sessionBefore attempts (start request .empty) (k + 1)).response.strHeaders = _ at hh'
  rw [← priorCallbacks_silent_iff, Isolated, hbody, hheaders, serve_complete_iff, hb', hh', hb, hh,
    ho, drop_eq_self_iff]
  simp only [start, HttpResponse.empty, List.nil_append, List.append_left_eq_self]

def postRequest : HttpRequest :=
  { method := .METHOD_POST, headers := [], body := ascii "data" }

-- A connection that dies after the body was sent and half an answer was read,
-- then one that answers in full.
def dyingAttempt : Attempt :=
  { callbacks := [.writeBody 4, .readHeaders (ascii "HTTP/1.1 200 OK"), .readBody (ascii "par")]
    code := .CURLE_RECV_ERROR
    httpCode := 200 }

def answeredAttempt : Attempt :=
  { callbacks := [.writeBody 4, .readHeaders (ascii "HTTP/1.1 200 OK"), .readBody (ascii "part")]
    code := .CURLE_OK
    httpCode := 200 }

theorem talk_isolated_first_attempt : Isolated (fun _ => answeredAttempt) postRequest 0 :=
  (talk_isolated_iff (fun _ => answeredAttempt) postRequest rfl 0 (by decide)
    ⟨rfl, by simp⟩).mpr (by simp)

-- The second answer is appended to the half of the first.
theorem talk_not_isolated :
    ¬∀ (attempts : ℕ → Attempt) (request : HttpRequest) (k : ℕ),
      Supported request.method → k < 3 → SucceedsAt attempts k → Isolated attempts request k := by
  intro hall
  have hi := hall (fun i => if i = 0 then dyingAttempt else answeredAttempt) postRequest 1 rfl
    (by decide) ⟨rfl, by simp [dyingAttempt]⟩
  exact absurd hi.1 (by decide +kernel)

end AsrServiceProxy.Http
