import SuperAgent.Eip712.Leaves
import SuperAgent.Platform.Enrollment

/-!
# Enrolled keys

Whatever the calls interleave to, an enrollment is submitted once at most: by
the call that took it, under the handle it was issued with, as it was issued. So
every key that is kept comes from a document a wallet was shown, with our terms.
-/

namespace SuperAgent.Platform

open Chain (Bytes32)
open Eip712 (TypedData digest encodeData encodeData_present encodeField encodeType hashStruct)
open Keys (AuthPayload Ed25519 Key PendingError PendingRequest Waiting Waitings)

/-! ## What is handed out -/

/-- A payload call that was answered. -/
structure Issue where
  req : PayloadRequest
  asked : EnrollmentRequest
  pending : Keys.Pending
  result : PayloadResult

/-- What an enrollment has from its first call. -/
structure Enrollment.Began (e : Enrollment) (E : Ed25519) (req : PayloadRequest)
    (asked : EnrollmentRequest) (p : Keys.Pending) : Prop where
  wallet : isAddress (trimSpace req.address)
  address : p.address = Keys.normalize req.address
  strategy : p.strategy = trimSpace req.strategy ∧
    (p.strategy = "" ∨ ∃ info ∈ catalog, info.id = p.strategy)
  asked : asked.address = trimSpace req.address ∧ asked.publicKey = p.publicKey ∧
    asked.scopeMask = scopeRead ||| scopeTrade ∧ asked.builderID = e.builderID ∧
      asked.maxBuilderFeePer100K = e.maxFee
  derived : p.derived = true → p.publicKey = req.publicKey
  generated : p.derived = false → Keys.Paired E p

/-- An issue carries our terms, and says what it is. -/
structure Enrollment.Issues (e : Enrollment) (E : Ed25519) (D : Documents) (x : Issue) : Prop where
  began : e.Began E x.req x.asked x.pending
  terms : D.builderTerms x.pending.typedData = some (e.builderID, e.maxFee)
  result : x.result = payloadResult D x.pending

/-- An enrollment as it was issued, taken under its handle before it expired, with its private
key. -/
def Takes (E : Ed25519) (issues : ℕ → Option Issue) (w : Waiting) (f : Finish) : Prop :=
  ∃ x, issues w.call = some x ∧ w.pending = { x.pending with privateKey := w.pending.privateKey } ∧
    x.pending.handle = f.handle ∧ f.takenAt ≤ x.pending.expiresAt ∧ Keys.Paired E w.pending

/-- What is submitted is what was issued, with the new key's signature of its digest. -/
def Proves (E : Ed25519) (D : Documents) (issues : ℕ → Option Issue) (s : Submission) : Prop :=
  Takes E issues s.waiting s.finish ∧ ∃ hash, D.digest s.waiting.pending.typedData = some hash ∧
    s.popSignature = E.sign s.waiting.pending.privateKey hash

/-- What the wallet is signed in with before a submission. -/
def Submission.signIn (s : Submission) : String × AuthPayload × String :=
  (s.waiting.pending.address, s.waiting.pending.auth, s.finish.signInSignature)

/-- The payload call a submission is of. -/
def Submission.call (s : Submission) : ℕ := s.waiting.call

def EnrollStage.issue : EnrollStage → Option Issue
  | .issued req asked p r => some ⟨req, asked, p, r⟩
  | _ => none

/-- The payload call whose enrollment a call took, and has no answer for. -/
def EnrollStage.holds : EnrollStage → Option ℕ
  | .taken w _ => some w.call
  | .signedIn s => some s.call
  | .submitted s => some s.call
  | _ => none

section

variable (e : Enrollment) (E : Ed25519) (D : Documents) (initial : Keys.Store)

/-- A key that was there at first, or that the venue answered a submission with. -/
def Comes (confirmed : List (Submission × APIKeyInfo)) (k : Key) : Prop :=
  k ∈ initial ∨ ∃ c ∈ confirmed, ∃ t, k = enrolledKey c.1.waiting.pending c.2 t

/-- What holds of what the calls share. -/
structure EnrollDesk.Sound (issues : ℕ → Option Issue) (d : EnrollDesk) : Prop where
  issued : ∀ i x, issues i = some x → e.Issues E D x
  waiting : ∀ w ∈ d.waiting, w.call ∉ d.taken ∧ ∃ x, issues w.call = some x ∧ x.pending = w.pending
  apart : (d.waiting.map Waiting.call).Nodup
  taken : d.taken.Nodup
  dealt : ∀ i ∈ d.taken, issues i ≠ none
  submitted : ∀ s ∈ d.submissions, s.call ∈ d.taken ∧ s.signIn ∈ d.signIns ∧ Proves E D issues s
  once : (d.submissions.map Submission.call).Nodup
  confirmed : ∀ c ∈ d.confirmed, c.1 ∈ d.submissions
  answered : (d.confirmed.map fun c => c.1.call).Nodup
  keys : ∀ k ∈ d.keys, k.Stored ∧ Comes initial d.confirmed k
  saved : ∀ k ∈ d.saved, k.Stored ∧ Comes initial d.confirmed k

/-- What is known of where a call is. -/
def EnrollStage.Fits (issues : ℕ → Option Issue) (d : EnrollDesk) : EnrollStage → Prop
  | .greeting req asked p => e.Began E req asked p
  | .asking req asked p => e.Began E req asked p
  | .registering req asked p =>
    e.Began E req asked p ∧ D.builderTerms p.typedData = some (e.builderID, e.maxFee)
  | .taken w f => Takes E issues w f ∧ w.call ∈ d.taken ∧ w.call ∉ d.submissions.map Submission.call
  | .signedIn s => (s.signIn ∈ d.signIns ∧ Proves E D issues s) ∧ s.call ∈ d.taken ∧
      s.call ∉ d.submissions.map Submission.call
  | .submitted s => s ∈ d.submissions ∧ s.call ∉ d.confirmed.map fun c => c.1.call
  | .confirmed s info => (s, info) ∈ d.confirmed
  | _ => True

end

/-! ## What one call does -/

section

variable {e : Enrollment} {E : Ed25519} {D : Documents} {initial : Keys.Store}
  {issues issues' : ℕ → Option Issue} {d d' : EnrollDesk} {stage stage' : EnrollStage}
  {req : PayloadRequest} {asked : EnrollmentRequest} {p q : Keys.Pending} {w : Waiting} {f : Finish}
  {s : Submission} {info : APIKeyInfo} {now : Time} {i : ℕ}

theorem check_spec {label : String} (h : req.check = .ok label) :
    isAddress (trimSpace req.address) ∧
      (trimSpace req.strategy = "" ∨ ∃ info ∈ catalog, info.id = trimSpace req.strategy) := by
  unfold PayloadRequest.check at h
  split at h
  · cases h
  · next haddress =>
    refine ⟨by simpa using haddress, ?_⟩
    split at h
    · cases h
    · next label' hlabel =>
      unfold PayloadRequest.keyLabel at hlabel
      split at hlabel
      · next hnone => exact .inl hnone
      · split at hlabel
        · cases hlabel
        · next info hinfo =>
          exact .inr ⟨info, List.mem_of_find?_eq_some hinfo, by simpa using List.find?_some hinfo⟩

theorem prepare_spec {seed : Ed25519.Seed} {handle : List Nat}
    (h : e.prepare E now req seed handle = .ok (asked, p)) : e.Began E req asked p := by
  unfold Enrollment.prepare at h
  split at h
  · cases h
  · next label hcheck =>
    dsimp only at h
    split at h
    · cases h
    · next q hq =>
      obtain ⟨rfl, rfl⟩ := Prod.mk.inj (Except.ok.inj h)
      obtain ⟨hwallet, hstrategy⟩ := check_spec hcheck
      have hprepared := Keys.preparePending_spec hq
      have htrim : q.strategy = trimSpace req.strategy :=
        hprepared.strategy.trans (trimSpace_trimSpace req.strategy)
      refine ⟨hwallet, ?_, ⟨htrim, ?_⟩, ⟨rfl, rfl, rfl, rfl, rfl⟩, hprepared.derived,
        fun hd => (hprepared.generated hd).2⟩
      · rw [hprepared.address, Keys.normalize, Keys.normalize, trimSpace_trimSpace]
      · rwa [htrim]

theorem accept_spec {answer : Except String (List UInt8 × String)}
    (h : e.accept D asked p answer = .ok q) :
    (∃ typedData mac, q = { p with typedData := typedData, mac := mac, salt := D.salt typedData }) ∧
      D.builderTerms q.typedData = some (e.builderID, e.maxFee) := by
  unfold Enrollment.accept at h
  split at h
  · cases h
  · next typedData mac _ =>
    split at h
    · next hterms =>
      obtain rfl := Except.ok.inj h
      exact ⟨⟨typedData, mac, rfl⟩, hterms⟩
    · cases h

/-- What a call has from its start does not depend on what the venue answers. -/
theorem Enrollment.Began.of_eq (h : e.Began E req asked p) (haddress : q.address = p.address)
    (hstrategy : q.strategy = p.strategy) (hpublic : q.publicKey = p.publicKey)
    (hprivate : q.privateKey = p.privateKey) (hderived : q.derived = p.derived) :
    e.Began E req asked q := by
  refine ⟨h.wallet, haddress.trans h.address, ?_, ?_, ?_, ?_⟩
  · rw [hstrategy]
    exact h.strategy
  · rw [hpublic]
    exact h.asked
  · rw [hpublic, hderived]
    exact h.derived
  · unfold Keys.Paired
    rw [hpublic, hprivate, hderived]
    exact h.generated

/-- A private key the device hands over is one the public key was made with. -/
theorem pairKey_spec {privateKey : String} (hp : p.derived = false → Keys.Paired E p)
    (h : pairKey E p privateKey = .ok q) :
    q = { p with privateKey := q.privateKey } ∧ Keys.Paired E q := by
  unfold pairKey at h
  dsimp only at h
  split at h
  · cases h
  · split at h
    · cases h
    · split at h
      · split at h
        · cases h
        · next seed _ =>
          split at h
          · cases h
          · next hsize =>
            split at h
            · cases h
            · next hpublic =>
              obtain rfl := Except.ok.inj h
              have hmade : p.publicKey = Ed25519.publicOf (E.newKeyFromSeed seed) :=
                (not_not.mp hpublic).symm
              exact ⟨rfl, ⟨seed, not_not.mp hsize⟩, rfl, hmade⟩
      · next hderived =>
        obtain rfl := Except.ok.inj h
        exact ⟨rfl, hp (by simpa using hderived)⟩

/-- The key of an enrollment is stored as it should be, and put as it is. -/
theorem stored_enrolledKey (h : e.Began E req asked p) (info : APIKeyInfo) (t : Time) :
    (enrolledKey p info t).Stored ∧ Keys.normalize p.address = p.address ∧
      trimSpace p.strategy = p.strategy := by
  have hnormal : Keys.normalize p.address = p.address := by
    rw [h.address]
    exact folded_folded req.address
  refine ⟨⟨hnormal, ?_, ?_⟩, hnormal, ?_⟩
  · have hslash := (toLower_of_isAddress h.wallet).2.2
    rwa [enrolledKey, h.address]
  · rcases h.strategy.2 with hnone | ⟨info, hinfo, hid⟩
    · show '/' ∉ (trimSpace p.strategy).toList
      rw [hnone]
      decide
    · have hcatalog : ∀ s ∈ catalog, '/' ∉ (trimSpace s.id).toList := by decide
      rw [enrolledKey, ← hid]
      exact hcatalog info hinfo
  · rw [h.strategy.1, trimSpace_trimSpace]

/-! ## What the calls share -/

theorem Takes.mono (h : Takes E issues w f) (hi : ∀ j x, issues j = some x → issues' j = some x) :
    Takes E issues' w f := by
  obtain ⟨x, hx, hrest⟩ := h
  exact ⟨x, hi _ x hx, hrest⟩

theorem Proves.mono (h : Proves E D issues s) (hi : ∀ j x, issues j = some x → issues' j = some x) :
    Proves E D issues' s := ⟨h.1.mono hi, h.2⟩

namespace EnrollDesk.Sound

/-- The clock does not matter. -/
theorem tick (h : d.Sound e E D initial issues) (t : Time) :
    { d with now := t }.Sound e E D initial issues :=
  ⟨h.issued, h.waiting, h.apart, h.taken, h.dealt, h.submitted, h.once, h.confirmed, h.answered,
    h.keys, h.saved⟩

/-- A process that begins has the keys that are kept, and no enrollment in progress. -/
theorem restart (h : d.Sound e E D initial issues) :
    { d with
        waiting := []
        keys := Keys.Store.withBackend d.saved }.Sound e E D initial issues := by
  refine ⟨h.issued, nofun, List.nodup_nil, h.taken, h.dealt, h.submitted, h.once, h.confirmed,
    h.answered, ?_, h.saved⟩
  intro k hk
  exact h.saved k (Keys.Store.mem_of_withBackend (fun k hk => (h.saved k hk).1) hk)

/-- An issue of a call that had none waits to be taken. -/
theorem register (h : d.Sound e E D initial issues) {x : Issue} (hnone : issues i = none)
    (hx : e.Issues E D x) :
    { d with waiting := d.waiting.register d.now ⟨i, x.pending⟩ }.Sound e E D initial
      (Function.update issues i (some x)) := by
  have hi : ∀ j y, issues j = some y → Function.update issues i (some x) j = some y := by
    intro j y hy
    have hne : j ≠ i := by
      rintro rfl
      rw [hnone] at hy
      cases hy
    rw [Function.update_of_ne hne, hy]
  have htaken : i ∉ d.taken := fun hin => h.dealt i hin hnone
  have hsub : (Table.erase Waitings.handle x.pending.handle
      (d.waiting.gc d.now)).Sublist d.waiting :=
    List.filter_sublist.trans List.filter_sublist
  have hfresh : i ∉ d.waiting.map Waiting.call := by
    rw [List.mem_map]
    rintro ⟨w, hw, rfl⟩
    obtain ⟨-, y, hy, -⟩ := h.waiting w hw
    rw [hnone] at hy
    cases hy
  refine ⟨?_, ?_, ?_, h.taken, ?_, ?_, h.once, h.confirmed, h.answered, h.keys, h.saved⟩
  · intro j y hy
    by_cases hji : j = i
    · subst hji
      rw [Function.update_self] at hy
      obtain rfl := Option.some.inj hy
      exact hx
    · rw [Function.update_of_ne hji] at hy
      exact h.issued j y hy
  · intro w hw
    rcases Waitings.mem_register hw with hold | rfl
    · obtain ⟨hnot, y, hy, hyw⟩ := h.waiting w hold
      exact ⟨hnot, y, hi _ y hy, hyw⟩
    · exact ⟨htaken, x, Function.update_self .., rfl⟩
  · rw [Waitings.register, Table.put, List.map_append]
    refine List.Nodup.append (h.apart.sublist (hsub.map _)) (List.nodup_singleton _) ?_
    intro j hj hji
    obtain rfl := List.mem_singleton.mp hji
    exact hfresh ((hsub.map _).subset hj)
  · intro j hj
    obtain ⟨y, hy⟩ := Option.ne_none_iff_exists'.mp (h.dealt j hj)
    rw [hi j y hy]
    exact Option.some_ne_none y
  · intro s hs
    obtain ⟨hin, hsign, hproves⟩ := h.submitted s hs
    exact ⟨hin, hsign, hproves.mono hi⟩

/-- An enrollment that is taken does not wait any more, whether or not anything comes of it. -/
theorem discard (h : d.Sound e E D initial issues) (handle : String) :
    { d with waiting := (d.waiting.takePending d.now handle).2 }.Sound e E D initial issues := by
  have hsub := Waitings.takePending_sublist d.waiting d.now handle
  exact ⟨h.issued, fun w hw => h.waiting w (hsub.subset hw), h.apart.sublist (hsub.map _), h.taken,
    h.dealt, h.submitted, h.once, h.confirmed, h.answered, h.keys, h.saved⟩

theorem take (h : d.Sound e E D initial issues) {handle : String}
    (hw : (d.waiting.takePending d.now handle).1 = .ok w) :
    { d with
        waiting := (d.waiting.takePending d.now handle).2
        taken := w.call :: d.taken }.Sound e E D initial issues := by
  obtain ⟨hmem, -, -, hgone⟩ := Waitings.takePending_spec hw
  obtain ⟨hnot, x, hx, -⟩ := h.waiting w hmem
  have hdiscard := h.discard handle
  refine ⟨h.issued, ?_, hdiscard.apart, List.nodup_cons.mpr ⟨hnot, h.taken⟩, ?_, ?_, h.once,
    h.confirmed, h.answered, h.keys, h.saved⟩
  · intro w' hw'
    obtain ⟨hnot', hissue⟩ := hdiscard.waiting w' hw'
    refine ⟨?_, hissue⟩
    rw [List.mem_cons, not_or]
    refine ⟨fun heq => ?_, hnot'⟩
    -- Two enrollments of one payload call are one, and that one is gone.
    have hin := (Waitings.takePending_sublist d.waiting d.now handle).subset hw'
    obtain rfl := List.inj_on_of_nodup_map h.apart hin hmem heq
    exact hgone hw'
  · intro j hj
    rcases List.mem_cons.mp hj with rfl | hj
    · rw [hx]
      exact Option.some_ne_none x
    · exact h.dealt j hj
  · intro s hs
    exact ⟨List.mem_cons_of_mem _ (h.submitted s hs).1, (h.submitted s hs).2⟩

/-- The venue accepted a sign-in. -/
theorem connect (h : d.Sound e E D initial issues) (x : String × AuthPayload × String) :
    { d with signIns := x :: d.signIns }.Sound e E D initial issues := by
  refine ⟨h.issued, h.waiting, h.apart, h.taken, h.dealt, ?_, h.once, h.confirmed, h.answered,
    h.keys, h.saved⟩
  intro s hs
  obtain ⟨hin, hsign, hproves⟩ := h.submitted s hs
  exact ⟨hin, List.mem_cons_of_mem x hsign, hproves⟩

theorem submit (h : d.Sound e E D initial issues) (hs : s.signIn ∈ d.signIns ∧ Proves E D issues s)
    (htaken : s.call ∈ d.taken)
    (hnew : s.call ∉ d.submissions.map Submission.call) :
    { d with submissions := s :: d.submissions }.Sound e E D initial issues := by
  refine ⟨h.issued, h.waiting, h.apart, h.taken, h.dealt, ?_, List.nodup_cons.mpr ⟨hnew, h.once⟩,
    fun c hc => List.mem_cons_of_mem s (h.confirmed c hc), h.answered, h.keys, h.saved⟩
  intro s' hs'
  rcases List.mem_cons.mp hs' with rfl | hs'
  · exact ⟨htaken, hs⟩
  · exact h.submitted s' hs'

theorem confirm (h : d.Sound e E D initial issues) (hs : s ∈ d.submissions)
    (hnew : s.call ∉ d.confirmed.map fun c => c.1.call) :
    { d with confirmed := (s, info) :: d.confirmed }.Sound e E D initial issues := by
  have hcomes : ∀ k, Comes initial d.confirmed k → Comes initial ((s, info) :: d.confirmed) k := by
    rintro k (hk | ⟨c, hc, t, hk⟩)
    · exact .inl hk
    · exact .inr ⟨c, List.mem_cons_of_mem _ hc, t, hk⟩
  refine ⟨h.issued, h.waiting, h.apart, h.taken, h.dealt, h.submitted, h.once, ?_,
    List.nodup_cons.mpr ⟨hnew, h.answered⟩, fun k hk => ⟨(h.keys k hk).1, hcomes k (h.keys k hk).2⟩,
    fun k hk => ⟨(h.saved k hk).1, hcomes k (h.saved k hk).2⟩⟩
  intro c hc
  rcases List.mem_cons.mp hc with rfl | hc
  · exact hs
  · exact h.confirmed c hc

/-- What is put is the key of an enrollment the venue confirmed. -/
theorem put (h : d.Sound e E D initial issues) (hs : (s, info) ∈ d.confirmed) (persisted : Bool) :
    { d with
        keys := d.keys.put (enrolledKey s.waiting.pending info d.now)
        saved := if persisted then d.saved.put (enrolledKey s.waiting.pending info d.now)
          else d.saved }.Sound e E D initial issues := by
  obtain ⟨-, -, ⟨x, hx, hpending, -⟩, -⟩ := h.submitted s (h.confirmed _ hs)
  have hbegan := (h.issued _ x hx).began
  have hkey : enrolledKey s.waiting.pending info d.now =
      { enrolledKey x.pending info d.now with privateKey := s.waiting.pending.privateKey } := by
    rw [hpending]
    rfl
  obtain ⟨hstored, haddress, hstrategy⟩ := stored_enrolledKey hbegan info d.now
  have hkeys : ∀ ks : Keys.Store, (∀ k ∈ ks, k.Stored ∧ Comes initial d.confirmed k) →
      ∀ k ∈ ks.put (enrolledKey s.waiting.pending info d.now),
        k.Stored ∧ Comes initial d.confirmed k := by
    intro ks hks k hk
    rcases List.mem_append.mp hk with hk | hk
    · exact hks k (List.mem_filter.mp hk).1
    · have hsame : k = enrolledKey s.waiting.pending info d.now := by
        rw [List.mem_singleton.mp hk, hkey]
        simp only [enrolledKey, haddress, hstrategy]
      refine ⟨?_, .inr ⟨(s, info), hs, d.now, hsame⟩⟩
      rw [hsame, hkey]
      exact ⟨hstored.normal, hstored.address, hstored.strategy⟩
  refine ⟨h.issued, h.waiting, h.apart, h.taken, h.dealt, h.submitted, h.once, h.confirmed,
    h.answered, hkeys d.keys h.keys, ?_⟩
  cases persisted with
  | true => exact hkeys d.saved h.saved
  | false => exact h.saved

end EnrollDesk.Sound

/-! ## Steps -/

/-- The logs grow, and only by what one payload call's enrollment does. -/
structure EnrollDesk.Extends (d d' : EnrollDesk) (own : Option ℕ) : Prop where
  taken : d.taken ⊆ d'.taken
  signIns : d.signIns ⊆ d'.signIns
  submissions : d.submissions ⊆ d'.submissions
  confirmed : d.confirmed ⊆ d'.confirmed
  sent : ∀ j ∈ d'.submissions.map Submission.call,
    j ∈ d.submissions.map Submission.call ∨ own = some j
  heard : ∀ j ∈ d'.confirmed.map (fun c => c.1.call),
    j ∈ d.confirmed.map (fun c => c.1.call) ∨ own = some j

theorem EnrollDesk.Extends.of_eq {own : Option ℕ} (htaken : d.taken ⊆ d'.taken)
    (hsignIns : d.signIns ⊆ d'.signIns) (hsubmissions : d'.submissions = d.submissions)
    (hconfirmed : d'.confirmed = d.confirmed) :
    d.Extends d' own :=
  ⟨htaken, hsignIns, hsubmissions ▸ List.Subset.refl _, hconfirmed ▸ List.Subset.refl _,
    fun _ hj => .inl (hsubmissions ▸ hj), fun _ hj => .inl (hconfirmed ▸ hj)⟩

theorem EnrollDesk.Extends.of_logs {own : Option ℕ} (htaken : d'.taken = d.taken)
    (hsignIns : d'.signIns = d.signIns) (hsubmissions : d'.submissions = d.submissions)
    (hconfirmed : d'.confirmed = d.confirmed) : d.Extends d' own :=
  .of_eq (htaken ▸ List.Subset.refl _) (hsignIns ▸ List.Subset.refl _) hsubmissions hconfirmed

namespace EnrollStage

/-- What is known of a call stays so while others go on with other enrollments. -/
theorem Fits.mono (h : stage.Fits e E D issues d) (own : Option ℕ)
    (hi : ∀ j x, issues j = some x → issues' j = some x) (he : d.Extends d' own)
    (hown : ∀ j, stage.holds = some j → own ≠ some j) : stage.Fits e E D issues' d' := by
  cases stage with
  | greeting req asked p => exact h
  | asking req asked p => exact h
  | registering req asked p => exact h
  | taken w f =>
    refine ⟨h.1.mono hi, he.taken h.2.1, fun hin => ?_⟩
    exact (he.sent _ hin).elim h.2.2 (hown _ rfl)
  | signedIn s =>
    refine ⟨⟨he.signIns h.1.1, h.1.2.mono hi⟩, he.taken h.2.1, fun hin => ?_⟩
    exact (he.sent _ hin).elim h.2.2 (hown _ rfl)
  | submitted s =>
    refine ⟨he.submissions h.1, fun hin => ?_⟩
    exact (he.heard _ hin).elim h.2 (hown _ rfl)
  | confirmed s info => exact he.confirmed h
  | _ => trivial

theorem Fits.cut (h : stage.Fits e E D issues d) : stage.cut.Fits e E D issues d := by
  cases stage <;> first | exact h | trivial

theorem issue_cut : stage.cut.issue = stage.issue := by
  cases stage <;> rfl

theorem holds_cut : stage.cut.holds = none := by
  cases stage <;> rfl

/-- An enrollment a call goes on with was taken. -/
theorem Fits.holds (h : stage.Fits e E D issues d) (hd : d.Sound e E D initial issues) {j : ℕ}
    (hj : stage.holds = some j) : j ∈ d.taken := by
  cases stage with
  | taken w f =>
    obtain rfl := Option.some.inj hj
    exact h.2.1
  | signedIn s =>
    obtain rfl := Option.some.inj hj
    exact h.2.1
  | submitted s =>
    obtain rfl := Option.some.inj hj
    exact (hd.submitted s h.1).1
  | _ => cases hj

end EnrollStage

/-- What a step of a call leads to: what is shared is as it should be, the call is where it may be,
and goes on with no enrollment but its own, or one nobody took before. -/
structure Leads (e : Enrollment) (E : Ed25519) (D : Documents) (initial : Keys.Store)
    (issues issues' : ℕ → Option Issue) (d d' : EnrollDesk) (stage stage' : EnrollStage) :
    Prop where
  sound : d'.Sound e E D initial issues'
  fits : stage'.Fits e E D issues' d'
  grows : d.Extends d' stage.holds
  holds : ∀ j, stage'.holds = some j → stage.holds = some j ∨ j ∉ d.taken

theorem orRefused_cases {α : Type} {r : Except EnrollError α} {go : α → EnrollDesk × EnrollStage}
    (h : orRefused d r go = some (d', stage')) :
    (∃ x, d' = d ∧ stage' = .refused x) ∨ ∃ a, r = .ok a ∧ go a = (d', stage') := by
  cases r with
  | error x =>
    obtain ⟨rfl, rfl⟩ := Prod.mk.inj (Option.some.inj h)
    exact .inl ⟨x, rfl, rfl⟩
  | ok a => exact .inr ⟨a, rfl, Option.some.inj h⟩

/-- A step that changes nothing but where its call is. -/
theorem Leads.of_stage (hd : d.Sound e E D initial issues) (hfits : stage'.Fits e E D issues d)
    (hholds : ∀ j, stage'.holds = some j → stage.holds = some j) :
    Leads e E D initial issues issues d d stage stage' :=
  ⟨hd, hfits, .of_logs rfl rfl rfl rfl, fun j hj => .inl (hholds j hj)⟩

theorem Enrollment.advance_spec {move : EnrollMove} (hd : d.Sound e E D initial issues)
    (hf : stage.Fits e E D issues d) (hi : issues i = stage.issue)
    (h : e.advance E D i d stage move = some (d', stage')) :
    stage.issue = none ∧
      Leads e E D initial issues (Function.update issues i stage'.issue) d d' stage stage' := by
  -- All but the last step of a payload call leave what was issued as it is.
  have hsame (hnone : stage.issue = none) (hnone' : stage'.issue = none) :
      Function.update issues i stage'.issue = issues := by
    rw [hnone', ← hnone, ← hi, Function.update_eq_self]
  have hstage {stage'' : EnrollStage} (hnone : stage.issue = none)
      (heq : (d, stage'') = (d', stage')) (hnone' : stage''.issue = none)
      (hfits : stage''.Fits e E D issues d)
      (hholds : ∀ j, stage''.holds = some j → stage.holds = some j) : stage.issue = none ∧
        Leads e E D initial issues (Function.update issues i stage'.issue) d d' stage stage' := by
    obtain ⟨rfl, rfl⟩ := Prod.mk.inj heq
    refine ⟨hnone, ?_⟩
    rw [hsame hnone hnone']
    exact .of_stage hd hfits hholds
  unfold Enrollment.advance at h
  split at h
  · rcases orRefused_cases h with ⟨x, rfl, rfl⟩ | ⟨⟨asked, p⟩, hprepare, heq⟩
    · exact hstage rfl rfl rfl trivial nofun
    · exact hstage rfl heq rfl (prepare_spec hprepare) nofun
  · next req asked p answer =>
    rcases orRefused_cases h with ⟨x, rfl, rfl⟩ | ⟨auth, -, heq⟩
    · exact hstage rfl rfl rfl trivial nofun
    · exact hstage rfl heq rfl (hf.of_eq rfl rfl rfl rfl rfl) nofun
  · next req asked p answer =>
    rcases orRefused_cases h with ⟨x, rfl, rfl⟩ | ⟨q, haccept, heq⟩
    · exact hstage rfl rfl rfl trivial nofun
    · obtain ⟨⟨typedData, mac, rfl⟩, hterms⟩ := accept_spec haccept
      exact hstage rfl heq rfl ⟨hf.of_eq rfl rfl rfl rfl rfl, hterms⟩ nofun
  · next req asked p =>
    obtain ⟨rfl, rfl⟩ := Prod.mk.inj (Option.some.inj h)
    have hissue : e.Issues E D ⟨req, asked, p, payloadResult D p⟩ := ⟨hf.1, hf.2, rfl⟩
    exact ⟨rfl, hd.register hi hissue, trivial, .of_logs rfl rfl rfl rfl, nofun⟩
  · next req =>
    dsimp only at h
    split at h
    · exact hstage rfl (Option.some.inj h) rfl trivial nofun
    · split at h
      · next x _ =>
        obtain ⟨rfl, rfl⟩ := Prod.mk.inj (Option.some.inj h)
        refine ⟨rfl, ?_⟩
        rw [hsame rfl rfl]
        exact ⟨hd.discard req.handle, trivial, .of_logs rfl rfl rfl rfl, nofun⟩
      · next w hw =>
        obtain ⟨hmem, hhandle, hexpires, -⟩ := Waitings.takePending_spec hw
        obtain ⟨hnot, x, hx, hpending⟩ := hd.waiting w hmem
        have hgrows : d.taken ⊆ w.call :: d.taken := List.subset_cons_self _ _
        rcases orRefused_cases h with ⟨x, rfl, rfl⟩ | ⟨q, hpair, heq⟩
        · refine ⟨rfl, ?_⟩
          rw [hsame rfl rfl]
          exact ⟨hd.take hw, trivial, .of_eq hgrows (List.Subset.refl _) rfl rfl, nofun⟩
        · obtain ⟨rfl, rfl⟩ := Prod.mk.inj heq
          refine ⟨rfl, ?_⟩
          rw [hsame rfl rfl]
          have hgenerated : w.pending.derived = false → Keys.Paired E w.pending :=
            hpending ▸ (hd.issued _ x hx).began.generated
          obtain ⟨hq, hpaired⟩ := pairKey_spec hgenerated hpair
          refine ⟨hd.take hw, ⟨⟨x, hx, ?_, ?_, ?_, hpaired⟩, List.mem_cons_self, ?_⟩,
            .of_eq hgrows (List.Subset.refl _) rfl rfl, ?_⟩
          · rw [hpending]
            exact hq
          · rw [hpending]
            exact hhandle
          · rw [hpending]
            exact hexpires
          · intro hin
            obtain ⟨s, hs, heq⟩ := List.mem_map.mp hin
            exact hnot (heq ▸ (hd.submitted s hs).1)
          · intro j hj
            obtain rfl := Option.some.inj hj
            exact .inr hnot
  · next w f answer =>
    split at h
    · exact hstage rfl (Option.some.inj h) rfl trivial nofun
    · split at h
      · exact hstage rfl (Option.some.inj h) rfl trivial nofun
      · next hash hhash =>
        obtain ⟨rfl, rfl⟩ := Prod.mk.inj (Option.some.inj h)
        refine ⟨rfl, ?_⟩
        rw [hsame rfl rfl]
        exact ⟨hd.connect _, ⟨⟨List.mem_cons_self, hf.1, hash, hhash, rfl⟩, hf.2⟩,
          .of_eq (List.Subset.refl _) (List.subset_cons_self _ _) rfl rfl, fun j hj => .inl hj⟩
  · next s =>
    obtain ⟨rfl, rfl⟩ := Prod.mk.inj (Option.some.inj h)
    refine ⟨rfl, ?_⟩
    rw [hsame rfl rfl]
    refine ⟨hd.submit hf.1 hf.2.1 hf.2.2, ⟨List.mem_cons_self, ?_⟩, ?_, fun j hj => .inl hj⟩
    · intro hin
      obtain ⟨c, hc, heq⟩ := List.mem_map.mp hin
      exact hf.2.2 (List.mem_map.mpr ⟨c.1, hd.confirmed c hc, heq⟩)
    · refine ⟨List.Subset.refl _, List.Subset.refl _, List.subset_cons_self _ _,
        List.Subset.refl _, ?_, fun _ => .inl⟩
      intro j hj
      rcases List.mem_cons.mp hj with rfl | hj
      · exact .inr rfl
      · exact .inl hj
  · next s answer =>
    rcases orRefused_cases h with ⟨x, rfl, rfl⟩ | ⟨info, -, heq⟩
    · exact hstage rfl rfl rfl trivial nofun
    · obtain ⟨rfl, rfl⟩ := Prod.mk.inj heq
      refine ⟨rfl, ?_⟩
      rw [hsame rfl rfl]
      refine ⟨hd.confirm hf.1 hf.2, List.mem_cons_self, ?_, nofun⟩
      refine ⟨List.Subset.refl _, List.Subset.refl _, List.Subset.refl _, List.subset_cons_self _ _,
        fun _ => .inl, ?_⟩
      intro j hj
      rcases List.mem_cons.mp hj with rfl | hj
      · exact .inr rfl
      · exact .inl hj
  · next s info persisted =>
    obtain ⟨rfl, rfl⟩ := Prod.mk.inj (Option.some.inj h)
    refine ⟨rfl, ?_⟩
    rw [hsame rfl rfl]
    exact ⟨hd.put hf persisted, trivial, .of_logs rfl rfl rfl rfl, nofun⟩
  · cases h

end

namespace Enrollments

variable {e : Enrollment} {E : Ed25519} {D : Documents} {initial : Keys.Store} {s t : Enrollments}
  {a : EnrollAction} {as : List EnrollAction}

/-- What was issued to whom. -/
def issues (s : Enrollments) (i : ℕ) : Option Issue := (s.calls i).issue

/-- What is shared is as it should be, every call is where it may be, and no two go on with one
enrollment. -/
structure Consistent (e : Enrollment) (E : Ed25519) (D : Documents) (initial : Keys.Store)
    (s : Enrollments) : Prop where
  desk : s.desk.Sound e E D initial s.issues
  fits : ∀ i, (s.calls i).Fits e E D s.issues s.desk
  alone : ∀ i j k, (s.calls i).holds = some k → (s.calls j).holds = some k → i = j

theorem consistent_start (h : initial.Sound) (now : Time) :
    (start now initial).Consistent e E D initial where
  desk :=
    { issued := fun i x h => by cases h
      waiting := nofun
      apart := List.nodup_nil
      taken := List.nodup_nil
      dealt := nofun
      submitted := nofun
      once := List.nodup_nil
      confirmed := nofun
      answered := List.nodup_nil
      keys := fun k hk =>
        have hin := Keys.Store.mem_of_withBackend h hk
        ⟨h k hin, .inl hin⟩
      saved := fun k hk => ⟨h k hk, .inl hk⟩ }
  fits _ := trivial
  alone i j k h := by cases h

theorem Consistent.step (h : s.Consistent e E D initial) (hs : s.step e E D a = some t) :
    t.Consistent e E D initial := by
  cases a with
  | tick now =>
    obtain ⟨-, heq⟩ := Option.ite_none_right_eq_some.mp hs
    obtain rfl := Option.some.inj heq
    refine ⟨h.desk.tick now, fun i => ?_, h.alone⟩
    exact (h.fits i).mono none (fun _ _ => id)
      (.of_logs rfl rfl rfl rfl) nofun
  | restart =>
    obtain rfl := Option.some.inj hs
    have hissues : issues ⟨{ s.desk with
        waiting := [], keys := Keys.Store.withBackend s.desk.saved }, fun i => (s.calls i).cut⟩ =
        s.issues := funext fun i => EnrollStage.issue_cut
    refine ⟨?_, fun i => ?_, fun i j k hi => ?_⟩
    · rw [hissues]
      exact h.desk.restart
    · rw [hissues]
      exact (h.fits i).cut.mono none (fun _ _ => id)
        (.of_logs rfl rfl rfl rfl) nofun
    · rw [EnrollStage.holds_cut] at hi
      cases hi
  | call i move =>
    obtain ⟨⟨d, stage⟩, hadvance, heq⟩ := Option.map_eq_some_iff.mp hs
    obtain rfl := heq
    obtain ⟨hnone, hleads⟩ := Enrollment.advance_spec h.desk (h.fits i) rfl hadvance
    have hissues : issues ⟨d, Function.update s.calls i stage⟩ =
        Function.update s.issues i stage.issue := by
      funext j
      by_cases hji : j = i
      · subst hji
        simp [issues]
      · simp [issues, hji]
    have hmono : ∀ j x, s.issues j = some x →
        Function.update s.issues i stage.issue j = some x := by
      intro j x hx
      have hji : j ≠ i := by
        rintro rfl
        rw [issues, hnone] at hx
        cases hx
      rw [Function.update_of_ne hji, hx]
    -- What the call goes on with, no other call does.
    have hlast : ∀ j k, stage.holds = some k → (s.calls j).holds = some k → j = i := by
      intro j k hk hj
      rcases hleads.holds k hk with hi | hfresh
      · exact h.alone j i k hj hi
      · exact absurd ((h.fits j).holds h.desk hj) hfresh
    refine ⟨hissues ▸ hleads.sound, fun j => ?_, fun j k x hj hk => ?_⟩
    · rw [hissues]
      by_cases hji : j = i
      · subst hji
        simpa using hleads.fits
      · have hother := (h.fits j).mono _ hmono hleads.grows fun x hx hi => hji (h.alone j i x hx hi)
        simpa [hji] using hother
    · by_cases hji : j = i
      · by_cases hki : k = i
        · exact hji.trans hki.symm
        · subst hji
          simp only [Function.update_self, Function.update_of_ne hki] at hj hk
          exact (hlast k x hj hk).symm
      · by_cases hki : k = i
        · subst hki
          simp only [Function.update_self, Function.update_of_ne hji] at hj hk
          exact hlast j x hk hj
        · simp only [Function.update_of_ne hji, Function.update_of_ne hki] at hj hk
          exact h.alone j k x hj hk

theorem Consistent.run (h : s.Consistent e E D initial)
    (hr : Run (fun s a t => s.step e E D a = some t) Always s as t) : t.Consistent e E D initial :=
  hr.invariant h fun _ _ _ ht _ hs => ht.step hs

/-- A submission is of a payload call that was answered: it is made under the handle that was
answered, before that expired, after the wallet was signed in with the message that was answered,
and submits the document that was answered, with a signature of its digest by the key that was
named. -/
structure Answers (E : Ed25519) (D : Documents) (t : Enrollments) (s : Submission) : Prop where
  issued : ∃ req asked p r, t.calls s.call = .issued req asked p r ∧ r.handle = s.finish.handle ∧
    s.finish.takenAt ≤ r.expiresAt ∧ s.waiting.pending.typedData = r.typedData ∧
    s.waiting.pending.auth.message = r.signInMessage ∧
    r.publicKey = "0x" ++ encodeHex s.waiting.pending.publicKey
  signedIn : s.signIn ∈ t.desk.signIns
  proves : ∃ hash, D.digest s.waiting.pending.typedData = some hash ∧
    E.verify s.waiting.pending.publicKey hash s.popSignature = true

theorem issued_of_issues {i : ℕ} {x : Issue} (hx : t.issues i = some x) :
    t.calls i = .issued x.req x.asked x.pending x.result := by
  unfold issues at hx
  cases hstage : t.calls i with
  | issued req asked p r =>
    rw [hstage] at hx
    cases hx
    rfl
  | _ =>
    rw [hstage] at hx
    cases hx

theorem Consistent.answers {sub : Submission} (hE : E.Lawful) (h : t.Consistent e E D initial)
    (hs : sub ∈ t.desk.submissions) : t.Answers E D sub := by
  obtain ⟨-, hsign, htakes, hash, hhash, hpop⟩ := h.desk.submitted sub hs
  obtain ⟨x, hx, hpending, hhandle, hexpires, seed, hprivate, hpublic⟩ := htakes
  refine ⟨?_, hsign, hash, hhash, ?_⟩
  · have hissues := (h.desk.issued _ x hx).result
    obtain ⟨req, asked, p, r⟩ := x
    have hcall : t.calls sub.call = .issued req asked p r := issued_of_issues hx
    obtain rfl : r = payloadResult D p := hissues
    refine ⟨req, asked, p, _, hcall, hhandle, hexpires, ?_, ?_, ?_⟩
    · rw [hpending]
      rfl
    · rw [hpending]
      rfl
    · rw [hpending]
      rfl
  · rw [hpop, hpublic, hprivate]
    exact hE.verify_sign seed hash

def tradeKey : List Nat :=
  [215, 90, 152, 1, 130, 177, 10, 183, 213, 75, 254, 211, 201, 100, 7, 58, 14, 225, 114, 243,
   218, 166, 35, 37, 175, 2, 26, 104, 247, 7, 81, 26]

def aWallet : String := "0x00000000000000000000000000000000000000aa"

end Enrollments

end SuperAgent.Platform
