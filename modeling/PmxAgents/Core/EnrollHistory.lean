import PmxAgents.Core.Enroll

/-!
# Attempts to enrol

A write of a file is all or nothing, but the certificate and the key are two writes. From the
renaming of the certificate on an attempt has to come to its end: if it is cut off there, or
the certificate cannot be taken back, a certificate stays without its key, and every later
attempt refuses because of it.
-/

namespace PmxAgents.Core.Enroll

open Lib Lib.Dialogue

variable {K : Type}

/-! ## Writing a file -/

section Writing
variable {d d' : Dir} {log : Log (Query K) (Reply K)} {file : File} {data what : String}
  {mode : Nat} {q : Query K} {rest : List (String × Query K)}
  {result : Option (Except String Unit)}

/-- The questions that leave both files as they are. -/
def Query.Aside : Query K → Prop
  | .rename _ => False
  | .remove _ => False
  | _ => True

theorem files_of_aside {r : Reply K} (h : Effect d q r d') (hq : q.Aside) :
    d'.files = d.files := by
  cases q with
  | rename file => cases hq
  | remove file => cases hq
  | stat file => rw [h.2]
  | createTemp =>
      rw [show d' = _ from h]
      split_ifs <;> rfl
  | removeTemp =>
      rw [show d' = _ from h]
      split_ifs <;> rfl
  | write data =>
      rw [Effect] at h
      split_ifs at h
      · rw [h]
        rfl
      · obtain ⟨part, rfl⟩ := h
        rfl
  | _ => rw [show d' = d from h]

/-- What one of the steps in order comes to. -/
theorem inOrder_cases (h : Begins (inOrder ((what, q) :: rest)) log result)
    (heffects : Effects Effect d log d') :
    (result ≠ some (.ok ()) ∧ (d' = d ∨ ∃ r, r ≠ .done ∧ Effect d q r d')) ∨
      ∃ mid tail, log = (q, .done) :: tail ∧ Effect d q .done mid ∧
        Begins (inOrder rest) tail result ∧ Effects Effect mid tail d' := by
  rw [inOrder] at h
  cases h with
  | cut =>
      cases heffects
      exact Or.inl ⟨nofun, Or.inl rfl⟩
  | ask r tail =>
      cases heffects with
      | cons first after =>
          beta_reduce at tail
          by_cases hdone : r.isDone
          · obtain rfl := Reply.isDone_iff.mp hdone
            exact Or.inr ⟨_, _, rfl, first, tail, after⟩
          · rw [if_neg hdone] at tail
            have hne : r ≠ .done := fun h => hdone (Reply.isDone_iff.mpr h)
            refine Or.inl ⟨?_, Or.inr ⟨r, hne, effects_of_ret tail after ▸ first⟩⟩
            rintro rfl
            cases tail

/-- A step that is not the renaming stops the write with both files as they were, or is passed. -/
theorem inOrder_aside (h : Begins (inOrder ((what, q) :: rest)) log result)
    (heffects : Effects Effect d log d') (hq : q.Aside) :
    (result ≠ some (.ok ()) ∧ d'.files = d.files) ∨
      ∃ mid tail, log = (q, .done) :: tail ∧ Effect d q .done mid ∧
        Begins (inOrder rest) tail result ∧ Effects Effect mid tail d' := by
  rcases inOrder_cases h heffects with ⟨hresult, rfl | ⟨r, -, heffect⟩⟩ | hpassed
  · exact Or.inl ⟨hresult, rfl⟩
  · exact Or.inl ⟨hresult, files_of_aside heffect hq⟩
  · exact Or.inr hpassed

/-- The renaming comes last: with it the file has the new content. -/
theorem inOrder_write
    (h : Begins (inOrder [("write temp", .write data), ("chmod temp", .chmod mode),
      ("close temp", .close), ("rename", .rename file)]) log result)
    (heffects : Effects Effect d log d') :
    (result ≠ some (.ok ()) ∧ d'.files = d.files) ∨
      ((∀ err, result ≠ some (.error err)) ∧ d'.files = (d.put (some data) file).files ∧
        (.rename file, .done) ∈ log) := by
  rcases inOrder_aside h heffects trivial with hstopped | ⟨d₁, log₁, rfl, hwrite, h, heffects⟩
  · exact Or.inl hstopped
  obtain rfl : d₁ = { d with temp := some data } := hwrite
  rcases inOrder_aside h heffects trivial with hstopped | ⟨d₂, log₂, rfl, hchmod, h, heffects⟩
  · exact Or.inl hstopped
  obtain rfl : d₂ = { d with temp := some data } := hchmod
  rcases inOrder_aside h heffects trivial with hstopped | ⟨d₃, log₃, rfl, hclose, h, heffects⟩
  · exact Or.inl hstopped
  obtain rfl : d₃ = { d with temp := some data } := hclose
  rcases inOrder_cases h heffects with ⟨hresult, rfl | ⟨r, hr, heffect⟩⟩ | hrenamed
  · exact Or.inl ⟨hresult, rfl⟩
  · rw [Effect, if_neg fun hdone => hr (Reply.isDone_iff.mp hdone)] at heffect
    exact Or.inl ⟨hresult, by rw [heffect]; rfl⟩
  · obtain ⟨d₄, log₄, rfl, ⟨content, hcontent, rfl⟩, h, heffects⟩ := hrenamed
    obtain rfl : data = content := Option.some.inj hcontent
    refine Or.inr ⟨fun err herr => ?_, ?_, by simp⟩
    · subst herr
      cases h
    · rw [effects_of_ret h heffects]
      cases file <;> rfl

theorem files_of_asks {α : Type} {t : Talk (Query K) (Reply K) α} {result : Option α}
    (ht : t.Asks Query.Aside) (h : Begins t log result) (heffects : Effects Effect d log d') :
    d'.files = d.files := by
  refine effects_of_neutral Dir.files ?_ (ht.log h) heffects
  intro s q r s' hq heffect
  exact files_of_aside heffect hq

theorem asks_deferred (written : Except String Unit) :
    (deferred (K := K) written).Asks Query.Aside :=
  ⟨trivial, fun _ => ⟨trivial, fun _ => trivial⟩⟩

/-- What is deferred leaves the files alone and hands the result on. -/
theorem deferred_cases {written : Except String Unit}
    (h : Begins (deferred written) log result) (heffects : Effects Effect d log d') :
    d'.files = d.files ∧ (result = none ∨ result = some written) := by
  refine ⟨files_of_asks (asks_deferred written) h heffects, ?_⟩
  cases h with
  | cut => exact Or.inl rfl
  | ask r h =>
      cases h with
      | cut => exact Or.inl rfl
      | ask r h =>
          cases h with
          | cut => exact Or.inl rfl
          | ret => exact Or.inr rfl

/-- A write leaves both files as they were, or has put the content in its place, and only the
second is reported as a success. -/
theorem atomicWrite_cases (h : Begins (atomicWrite file data mode) log result)
    (heffects : Effects Effect d log d') :
    (result ≠ some (.ok ()) ∧ d'.files = d.files) ∨
      ((∀ err, result ≠ some (.error err)) ∧ d'.files = (d.put (some data) file).files ∧
        (.rename file, .done) ∈ log) := by
  rw [atomicWrite] at h
  cases h with
  | cut =>
      cases heffects
      exact Or.inl ⟨nofun, rfl⟩
  | @ask _ _ r tail _ h =>
      beta_reduce at h
      obtain ⟨mid, hcreate, heffects⟩ : ∃ mid, mid.files = d.files ∧
          Effects Effect mid tail d' := by
        cases heffects with
        | cons first after => exact ⟨_, files_of_aside first trivial, after⟩
      have hput : (mid.put (some data) file).files = (d.put (some data) file).files := by
        obtain ⟨hcert, hkey⟩ : mid.cert = d.cert ∧ mid.key = d.key := Prod.mk.inj hcreate
        cases file <;> simp [Dir.put, Dir.files, hcert, hkey]
      by_cases hdone : r.isDone
      · rw [if_pos hdone] at h
        rcases begins_bind h with ⟨rfl, hcut⟩ | ⟨first, rest, written, rfl, hfirst, hrest⟩
        · rcases inOrder_write hcut heffects with ⟨-, hsame⟩ | ⟨-, hwritten, hmem⟩
          · exact Or.inl ⟨nofun, hsame.trans hcreate⟩
          · exact Or.inr ⟨nofun, hwritten.trans hput, List.mem_cons_of_mem _ hmem⟩
        · obtain ⟨last, hlast, hdeferred⟩ := effects_append heffects
          obtain ⟨hkept, hresult⟩ := deferred_cases hrest hdeferred
          rcases inOrder_write hfirst hlast with ⟨hfailed, hsame⟩ | ⟨hnoerror, hwritten, hmem⟩
          · refine Or.inl ⟨?_, hkept.trans (hsame.trans hcreate)⟩
            rcases hresult with rfl | rfl
            · exact nofun
            · exact hfailed
          · refine Or.inr ⟨?_, hkept.trans (hwritten.trans hput),
              List.mem_cons_of_mem _ (List.mem_append_left _ hmem)⟩
            rcases hresult with rfl | rfl
            · exact nofun
            · exact hnoerror
      · rw [if_neg hdone] at h
        refine Or.inl ⟨?_, effects_of_ret h heffects ▸ hcreate⟩
        rintro rfl
        cases h

end Writing

/-! ## Whole attempts -/

section Attempts
variable {libs : Libraries K} {cfg : Config} {d d' : Dir} {log : Log (Query K) (Reply K)}
  {result : Option (Except EnrollError Unit)} {k : K} {cert : String}

theorem asks_request (libs : Libraries K) (cfg : Config) : (request libs cfg).Asks Query.Aside := by
  refine ⟨trivial, fun r => ?_⟩
  cases r with
  | key k =>
      refine ⟨trivial, fun r => ?_⟩
      cases r with
      | host fingerprint capability =>
          dsimp only
          split
          · trivial
          split
          · trivial
          split
          · trivial
          refine ⟨trivial, fun r => ?_⟩
          cases r with
          | _ => trivial
      | _ => trivial
  | _ => trivial

/-- The key of a request is the one generated, and the certificate is what the backend sent. -/
theorem request_ok (h : Begins (request libs cfg) log (some (.ok (k, cert)))) :
    (.generateKey, .key k) ∈ log ∧
      ∃ url body r, (.post url body, .response r) ∈ log ∧ r.certificateOf = .ok cert := by
  rw [request] at h
  cases h with
  | ask r h =>
      cases r with
      | key k' =>
          cases h with
          | ask r h =>
              cases r with
              | host fingerprint capability =>
                  dsimp only at h
                  split at h
                  · cases h
                  split at h
                  · cases h
                  split at h
                  · cases h
                  cases h with
                  | ask r h =>
                      cases r with
                      | response r =>
                          dsimp only at h
                          cases hcert : r.certificateOf with
                          | error err =>
                              rw [hcert] at h
                              cases h
                          | ok issued =>
                              rw [hcert] at h
                              cases h
                              exact ⟨by simp, _, _, r, List.mem_cons_of_mem _
                                 (List.mem_cons_of_mem _ List.mem_cons_self), hcert⟩
                      | _ => cases h
              | _ => cases h
      | _ => cases h

/-- Storing the key takes the certificate back or ends with both in their places, if it is not
cut off. -/
theorem storeKey_cases {keyPEM : String} (h : Begins (storeKey libs k) log result)
    (heffects : Effects Effect d log d') (hkey : libs.marshalPKCS8 k = .ok keyPEM)
    (huncut : result.isSome) (hremoves : ∀ r, (.remove .cert, r) ∈ log → r = .done) :
    d'.cert = none ∨
      (result = some (.ok ()) ∧ d'.files = (d.put (some keyPEM) .key).files) := by
  rw [storeKey, hkey] at h
  rcases begins_bind h with ⟨rfl, -⟩ | ⟨first, rest, written, rfl, hwrite, hrest⟩
  · cases huncut
  obtain ⟨mid, hfirst, hsecond⟩ := effects_append heffects
  cases written with
  | ok u =>
      cases hrest with
      | cut => cases huncut
      | ret =>
          cases hsecond
          rcases atomicWrite_cases hwrite hfirst with ⟨hfailed, -⟩ | ⟨-, hwritten, -⟩
          · exact absurd rfl hfailed
          · exact Or.inr ⟨rfl, hwritten⟩
  | error err =>
      cases hrest with
      | cut => cases huncut
      | ask r tail =>
          obtain rfl : r = .done := hremoves r (by simp)
          cases hsecond with
          | cons hremove hend =>
              cases tail with
              | cut => cases huncut
              | ret =>
                  cases hend
                  exact Or.inl (congrArg Dir.cert hremove)

theorem store_cases {keyPEM : String} (h : Begins (store libs cfg k cert) log result)
    (heffects : Effects Effect d log d') (hkey : libs.marshalPKCS8 k = .ok keyPEM)
    (huncut : (.rename .cert, .done) ∈ log → result.isSome)
    (hremoves : ∀ r, (.remove .cert, r) ∈ log → r = .done) :
    d'.files = d.files ∨ d'.cert = none ∨
      (result = some (.ok ()) ∧ d'.cert = some cert ∧ d'.key = some keyPEM) := by
  rw [store] at h
  cases h with
  | cut =>
      cases heffects
      exact Or.inl rfl
  | ask r h =>
      cases heffects with
      | cons hmkdir heffects =>
          obtain rfl := show _ = d from hmkdir
          beta_reduce at h
          split_ifs at h
          · rcases begins_bind h with ⟨rfl, hcut⟩ | ⟨first, rest, written, rfl, hwrite, hrest⟩
            · rcases atomicWrite_cases hcut heffects with ⟨-, hsame⟩ | ⟨-, -, hmem⟩
              · exact Or.inl hsame
              · cases huncut (List.mem_cons_of_mem _ hmem)
            · obtain ⟨mid, hfirst, hsecond⟩ := effects_append heffects
              rcases atomicWrite_cases hwrite hfirst with ⟨hfailed, hsame⟩ | ⟨hnoerror, hput, hmem⟩
              · cases written with
                | ok u => exact absurd rfl hfailed
                | error err => exact Or.inl (effects_of_ret hrest hsecond ▸ hsame)
              · cases written with
                | error err => exact absurd rfl (hnoerror err)
                | ok u =>
                    have hsome := huncut (List.mem_cons_of_mem _ (List.mem_append_left _ hmem))
                    rcases storeKey_cases hrest hsecond hkey hsome fun r hr =>
                        hremoves r (List.mem_cons_of_mem _ (List.mem_append_right _ hr))
                      with hnone | ⟨hok, hfiles⟩
                    · exact Or.inr (Or.inl hnone)
                    · obtain ⟨hcert, hkey'⟩ := Prod.mk.inj hfiles
                      exact Or.inr (Or.inr ⟨hok, hcert.trans (Prod.mk.inj hput).1, hkey'⟩)
          · exact Or.inl (congrArg Dir.files (effects_of_ret h heffects))

/-- An orderly attempt leaves a matching pair, and no certificate where it found none and did not
succeed. -/
theorem matched_of_orderly {a : EnrollAttempt K} (hrun : Begins (run libs cfg) a.log a.result)
    (heffects : Effects Effect a.before a.log a.after) (horderly : Orderly libs a)
    (hbefore : Matched libs a.before) :
    Matched libs a.after ∧
      (a.before.cert = none → a.result ≠ some (.ok ()) → a.after.cert = none) := by
  obtain ⟨before, log, result, after⟩ := a
  obtain ⟨huncut, hencodes, hremoves, hissues⟩ := horderly
  simp only at hrun heffects hbefore huncut hencodes hremoves hissues ⊢
  have hsame : after.files = before.files → Matched libs after ∧
      (before.cert = none → result ≠ some (.ok ()) → after.cert = none) := by
    intro hfiles
    obtain ⟨hcert, hkey⟩ : after.cert = before.cert ∧ after.key = before.key := Prod.mk.inj hfiles
    rw [Matched, hcert, hkey]
    exact ⟨hbefore, fun hnone _ => hnone⟩
  rw [run] at hrun
  split_ifs at hrun
  · exact hsame (congrArg Dir.files (effects_of_ret hrun heffects))
  · exact hsame (congrArg Dir.files (effects_of_ret hrun heffects))
  cases hrun with
  | cut =>
      cases heffects
      exact hsame rfl
  | ask r hrun =>
      cases heffects with
      | cons hstat heffects =>
          obtain ⟨-, rfl⟩ := hstat
          beta_reduce at hrun
          split_ifs at hrun
          · exact hsame (congrArg Dir.files (effects_of_ret hrun heffects))
          rcases begins_bind hrun with ⟨rfl, hcut⟩ | ⟨first, rest, issued, rfl, hrequest, hrest⟩
          · exact hsame (files_of_asks (asks_request libs cfg) hcut heffects)
          obtain ⟨mid, hfirst, hsecond⟩ := effects_append heffects
          have hmid := files_of_asks (asks_request libs cfg) hrequest hfirst
          cases issued with
          | error err => exact hsame (effects_of_ret hrest hsecond ▸ hmid)
          | ok issued =>
              obtain ⟨k, cert⟩ := issued
              obtain ⟨hgenerated, url, body, r, hposted, hcert⟩ := request_ok hrequest
              obtain ⟨keyPEM, hkeyPEM⟩ := hencodes k (by simp [hgenerated])
              have hfor : libs.issuedFor cert = some k :=
                hissues k url body r cert (by simp [hgenerated]) (by simp [hposted]) hcert
              rcases store_cases hrest hsecond hkeyPEM (fun h => huncut (by simp [h]))
                  (fun r hr => hremoves r (by simp [hr])) with hfiles | hnone | ⟨hok, hcert', hkey'⟩
              · exact hsame (hfiles.trans hmid)
              · refine ⟨fun c hc => ?_, fun _ _ => hnone⟩
                rw [hnone] at hc
                cases hc
              · refine ⟨fun c hc => ?_, fun _ hne => absurd hok hne⟩
                obtain rfl : cert = c := Option.some.inj (hcert'.symm.trans hc)
                exact ⟨k, keyPEM, hfor, hkeyPEM, hkey'⟩

/-- Anything but the refusal for a certificate that is there already. -/
def NoRefusal {α : Type} (result : Except EnrollError α) : Prop :=
  ∀ path, result ≠ .error (.certExists path)

theorem Response.noRefusal_certificateOf (r : Response) : NoRefusal r.certificateOf := by
  intro path h
  rw [Response.certificateOf] at h
  split at h
  · cases h
  split at h
  · cases h
  split at h
  · cases h
  · cases h

theorem returns_request (libs : Libraries K) (cfg : Config) :
    (request libs cfg).Returns NoRefusal := by
  intro r
  cases r with
  | key k =>
      intro r
      cases r with
      | host fingerprint capability =>
          dsimp only
          split
          · exact nofun
          split
          · exact nofun
          split
          · exact nofun
          intro r
          cases r with
          | response r =>
              intro path h
              cases hcert : r.certificateOf with
              | ok cert =>
                  rw [hcert] at h
                  cases h
              | error err =>
                  rw [hcert] at h
                  cases h
                  exact r.noRefusal_certificateOf path hcert
          | _ => exact nofun
      | _ => exact nofun
  | _ => exact nofun

theorem returns_store (libs : Libraries K) (cfg : Config) (k : K) (cert : String) :
    (store libs cfg k cert).Returns NoRefusal := by
  intro r
  beta_reduce
  split_ifs
  · refine (Talk.returns_any _).bind fun written _ => ?_
    cases written with
    | error err => exact nofun
    | ok u =>
        dsimp only
        rw [storeKey]
        split
        · exact nofun
        refine (Talk.returns_any _).bind fun written _ => ?_
        cases written with
        | error err => exact fun r => nofun
        | ok u => exact nofun
  · exact nofun

/-- Where there is no certificate no attempt is refused for one. -/
theorem retriable_of_none (hnone : d.cert = none) : Retriable libs cfg d := by
  rintro log result after hrun heffects rfl
  rw [run] at hrun
  split_ifs at hrun
  · cases hrun
  · cases hrun
  cases hrun with
  | ask r hrun =>
      cases heffects with
      | cons hstat heffects =>
          beta_reduce at hrun
          split_ifs at hrun with hdone
          · have hsome := hstat.1 (Reply.isDone_iff.mp hdone)
            rw [hnone] at hsome
            cases hsome
          · refine Talk.Returns.result (p := NoRefusal)
              ((returns_request libs cfg).bind ?_) hrun _ rfl
            intro issued hissued
            cases issued with
            | ok issued => exact returns_store libs cfg issued.1 issued.2
            | error err => exact fun path h => hissued path (by cases h; rfl)

end Attempts

/-- In a sequence of orderly attempts the directory never has a certificate without its key, and
after an attempt that found none and did not succeed the next one is not refused. -/
theorem enrolled_of_orderly (libs : Libraries K) (cfg : Config) (attempts : List (EnrollAttempt K))
    (hhistory : History Effect (run libs cfg) attempts)
    (hstart : ∀ a ∈ attempts.head?, Matched libs a.before)
    (horderly : ∀ a ∈ attempts, Orderly libs a) :
    ∀ a ∈ attempts, Matched libs a.after ∧
      (a.before.cert = none → a.result ≠ some (.ok ()) → Retriable libs cfg a.after) := by
  have hmatched := hhistory.invariant hstart fun a ha hbefore =>
    (matched_of_orderly (hhistory.runs a ha) (hhistory.effects a ha) (horderly a ha) hbefore).1
  intro a ha
  obtain ⟨hafter, hnone⟩ := matched_of_orderly (hhistory.runs a ha) (hhistory.effects a ha)
    (horderly a ha) (hmatched a ha).1
  exact ⟨hafter, fun hfound hfailed => retriable_of_none (hnone hfound hfailed)⟩

/-! ## An attempt that is cut off -/

section Cut

def cfg₀ : Config :=
  ⟨"https://api.pmxcloud.example/agents/enroll", ["etc", "pmx-cloud", "pmx-core"], "t"⟩

/-- Libraries with one certificate, issued for the key 1. -/
def libs₀ : Libraries Nat where
  createCSR _ _ := .ok "csr"
  marshalRequest _ := .ok "body"
  newRequest _ := .ok ()
  marshalPKCS8 _ := .ok "pkcs8"
  issuedFor cert := if cert = "cert" then some 1 else none

/-- The questions up to the first write. -/
def requestLog : Log (Query Nat) (Reply Nat) :=
  [(.stat .cert, .failed "no such file or directory"), (.generateKey, .key 1),
    (.collect, .host "host" "capability"),
    (.post cfg₀.enrollURL "body", .response ⟨200, "cert", "", none⟩),
    (.mkdirAll 0o750, .done)]

/-- The questions of a write before the renaming. -/
def tempLog (data : String) : Log (Query Nat) (Reply Nat) :=
  [(.createTemp, .done), (.write data, .done), (.chmod 0o400, .done), (.close, .done)]

def writeLog (file : File) (data : String) : Log (Query Nat) (Reply Nat) :=
  tempLog data ++ [(.rename file, .done)]

def deferredLog : Log (Query Nat) (Reply Nat) :=
  [(.close, .failed "file already closed"), (.removeTemp, .failed "no such file or directory")]

theorem begins_run {tail : Log (Query Nat) (Reply Nat)} {result : Option (Except EnrollError Unit)}
    (h : Begins ((atomicWrite .cert "cert" 0o400).bind fun
        | .ok () => storeKey libs₀ 1
        | .error err => .ret (.error (.writeCert err))) tail result) :
    Begins (run libs₀ cfg₀) (requestLog ++ tail) result := by
  rw [run, if_neg (by decide), if_neg (by decide)]
  exact .ask _ (.ask _ (.ask _ (.ask _ (.ask _ h))))

theorem effects_requestLog (d : Dir) {d' : Dir} {tail : Log (Query Nat) (Reply Nat)}
    (h : Effects Effect d tail d') : Effects Effect d (requestLog ++ tail) d' :=
  .cons ⟨nofun, rfl⟩ (.cons rfl (.cons rfl (.cons rfl (.cons rfl h))))

theorem effects_tempLog (d : Dir) (data : String) {d' : Dir} {tail : Log (Query Nat) (Reply Nat)}
    (h : Effects Effect { d with temp := some data } tail d') :
    Effects Effect d (tempLog data ++ tail) d' :=
  .cons rfl (.cons rfl (.cons rfl (.cons rfl h)))

theorem orderly_of_log {a : EnrollAttempt Nat}
    (huncut : (.rename .cert, .done) ∈ a.log → a.result.isSome)
    (hremove : ∀ r, (.remove .cert, r) ∉ a.log)
    (hkey : ∀ k, (.generateKey, .key k) ∈ a.log → k = 1)
    (hpost : ∀ url body r, (.post url body, .response r) ∈ a.log → r = ⟨200, "cert", "", none⟩) :
    Orderly libs₀ a := by
  refine ⟨huncut, fun k _ => ⟨"pkcs8", rfl⟩, fun r h => absurd h (hremove r),
    fun k url body r cert hk hr hcert => ?_⟩
  obtain rfl := hkey k hk
  obtain rfl := hpost url body r hr
  obtain rfl : "cert" = cert := Except.ok.inj hcert
  rfl

def empty : Dir := ⟨none, none, none⟩

/-- An attempt that is cut off before the certificate is renamed. -/
def cutEarly : EnrollAttempt Nat :=
  ⟨empty, requestLog ++ tempLog "cert", none, ⟨none, none, some "cert"⟩⟩

/-- The attempt after it, which comes to its end. -/
def second : EnrollAttempt Nat :=
  ⟨⟨none, none, some "cert"⟩,
    requestLog ++ (writeLog .cert "cert" ++
      (deferredLog ++ (writeLog .key "pkcs8" ++ deferredLog))),
    some (.ok ()), ⟨some "cert", some "pkcs8", none⟩⟩

/-- The pair is in its place after an attempt that was cut off early and another one. -/
theorem enrolled_second :
    Matched libs₀ second.after ∧ Retriable libs₀ cfg₀ cutEarly.after := by
  have hall := enrolled_of_orderly libs₀ cfg₀ [cutEarly, second] ⟨?_, ?_, ?_⟩ ?_ ?_
  · exact ⟨(hall second (by simp)).1, (hall cutEarly (by simp)).2 rfl nofun⟩
  · refine List.forall_mem_cons.mpr ⟨?_, List.forall_mem_singleton.mpr ?_⟩
    · exact begins_run (.ask _ (.ask _ (.ask _ (.ask _ (.cut _)))))
    · exact begins_run (.ask _ (.ask _ (.ask _ (.ask _ (.ask _ (.ask _ (.ask _ (.ask _ (.ask _
        (.ask _ (.ask _ (.ask _ (.ask _ (.ask _ (.ret _)))))))))))))))
  · refine List.forall_mem_cons.mpr ⟨?_, List.forall_mem_singleton.mpr ?_⟩
    · exact effects_requestLog _ (effects_tempLog _ _ (.nil _))
    · exact effects_requestLog _ (effects_tempLog _ _ (.cons ⟨_, rfl, rfl⟩ (.cons rfl (.cons rfl
        (effects_tempLog _ _ (.cons ⟨_, rfl, rfl⟩ (.cons rfl (.cons rfl (.nil _)))))))))
  · simp [cutEarly, second]
  · intro a ha c hc
    obtain rfl : cutEarly = a := Option.some.inj ha
    cases hc
  · refine List.forall_mem_cons.mpr ⟨?_, List.forall_mem_singleton.mpr ?_⟩
    · refine orderly_of_log ?_ ?_ ?_ ?_ <;> simp [cutEarly, requestLog, tempLog]
    · refine orderly_of_log ?_ ?_ ?_ ?_ <;>
        simp [second, requestLog, writeLog, tempLog, deferredLog]

/-- An attempt that is cut off between the two writes. -/
def cutBetween : EnrollAttempt Nat :=
  ⟨empty, requestLog ++ writeLog .cert "cert", none, ⟨some "cert", none, none⟩⟩

/-- It leaves a certificate without a key, and the next attempt is refused because of it. -/
theorem cutBetween_refused :
    History Effect (run libs₀ cfg₀) [cutBetween] ∧ Matched libs₀ cutBetween.before ∧
      cutBetween.before.cert = none ∧ cutBetween.result ≠ some (.ok ()) ∧
      ¬ Matched libs₀ cutBetween.after ∧ ¬ Retriable libs₀ cfg₀ cutBetween.after := by
  refine ⟨⟨?_, ?_, .singleton _⟩, nofun, rfl, nofun, ?_, ?_⟩
  · exact List.forall_mem_singleton.mpr
      (begins_run (.ask _ (.ask _ (.ask _ (.ask _ (.ask _ (.cut _)))))))
  · exact List.forall_mem_singleton.mpr
      (effects_requestLog _ (effects_tempLog _ _ (.cons ⟨_, rfl, rfl⟩ (.nil _))))
  · intro hmatched
    obtain ⟨k, keyPEM, -, -, hkey⟩ := hmatched "cert" rfl
    cases hkey
  · intro hretriable
    refine hretriable [(.stat .cert, .done)] _ cutBetween.after ?_
      (.cons ⟨fun _ => rfl, rfl⟩ (.nil _)) rfl
    rw [run, if_neg (by decide), if_neg (by decide)]
    exact .ask _ (.ret _)

end Cut

end PmxAgents.Core.Enroll
