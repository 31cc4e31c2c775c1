import Pqwire.Proof.Rewrite
import Pqwire.Proof.Wire
import Pqwire.Spec.WellFormed

/-!
# The first message

* `startupLoop_pairs`: what the loop of `parse_startup_body` makes of well-formed parameters.
* `startup_exact_iff`: the first message is received as it should be exactly when it is a
  StartupMessage of version 3.0; any other one is taken for a StartupMessage too.
-/

namespace Pqwire

open ByteMem LastWrite

theorem length_le_encPairs (pairs : List (CStr × CStr)) : pairs.length ≤ (encPairs pairs).length := by
  induction pairs with
  | nil => exact Nat.zero_le _
  | cons kv pairs ih =>
    simp only [encPairs, List.flatMap_cons, List.length_append, CStr.toBytes_length, List.length_cons] at ih ⊢
    omega

/-- The value that the loop copies for a key. -/
def copiedFor (key : CStr) (kv : CStr × CStr) : Option CStr := if kv.1 = key then some (copyCstr 128 kv.2) else none

theorem startupLoop_pairs {body : Bytes} {pairs : List (CStr × CStr)} (hk : ∀ kv ∈ pairs, 0 < kv.1.length) (pre : Bytes)
    (hb : body = pre ++ encPairs pairs ++ [0]) (n : ℕ) (hn : pairs.length ≤ n) (user db : CStr) :
    startupLoop body n pre.length user db =
      ((lastOf (copiedFor keyUser) pairs).getD user, (lastOf (copiedFor keyDatabase) pairs).getD db) := by
  induction pairs generalizing pre n user db with
  | nil =>
    -- what is left is the closing zero byte
    have hend : ¬pre.length + 1 < body.length := by
      rw [hb]
      simp [encPairs]
    cases n with
    | zero => rfl
    | succ n => rw [startupLoop, if_neg hend]; rfl
  | cons kv pairs ih =>
    obtain ⟨m, rfl⟩ : ∃ m, n = m + 1 := ⟨n - 1, by rw [List.length_cons] at hn; omega⟩
    rw [List.length_cons] at hn
    have hb₁ : body = pre ++ (kv.1.toBytes ++ (kv.2.toBytes ++ (encPairs pairs ++ [0]))) := by
      rw [hb]
      simp only [encPairs, List.flatMap_cons, List.append_assoc]
    have hb₂ : body = (pre ++ kv.1.toBytes ++ kv.2.toBytes) ++ encPairs pairs ++ [0] := by
      rw [hb₁]
      simp only [List.append_assoc]
    have hrest := ih (fun x hx => hk x (List.mem_cons_of_mem _ hx)) _ hb₂ m (by omega)
    have hne : keyUser ≠ keyDatabase := by decide
    rw [startupLoop_pair (hk kv List.mem_cons_self) hb₁, hrest, hrest, hrest]
    simp only [lastOf, Option.getD_or, copiedFor]
    by_cases hu : kv.1 = keyUser
    · rw [if_pos hu, if_pos hu, if_neg (by rw [hu]; exact hne)]
      rfl
    · rw [if_neg hu, if_neg hu]
      by_cases hd : kv.1 = keyDatabase
      · rw [if_pos hd, if_pos hd]
        rfl
      · rw [if_neg hd, if_neg hd]
        rfl

/-- The last copy is the copy of the last value. -/
theorem lastOf_copied (key : CStr) (pairs : List (CStr × CStr)) :
    (lastOf (copiedFor key) pairs).getD CStr.empty = (lastValue key pairs).take 127 := by
  have hw : copiedFor key = fun kv => (if kv.1 = key then some kv.2 else none).map (copyCstr 128) := by
    funext kv
    unfold copiedFor
    split
    · rfl
    · rfl
  rw [hw, lastOf_map, lastValue]
  cases lastOf (fun kv : CStr × CStr => if kv.1 = key then some kv.2 else none) pairs with
  | none => rfl
  | some v => rfl

/-- What `parse_startup_body` leaves behind, whatever the body is. -/
theorem parseStartupBody_seen (c : Ctx) (body : Bytes) (n : ℕ) :
    ((parseStartupBody c body).consume n).startupSeen = true ∧
    ((parseStartupBody c body).consume n).log = c.log ++ [⟨.startup, body,
      { strs := [(startupLoop body body.length 4 CStr.empty CStr.empty).1,
        (startupLoop body body.length 4 CStr.empty CStr.empty).2] }⟩] := by
  unfold parseStartupBody
  dsimp only
  split
  · exact ⟨rfl, rfl⟩
  · exact ⟨rfl, rfl⟩

/-- **The first message is received as it should be exactly when it is a StartupMessage of version
3.0.** The message lies complete in the input of a server that waits for it; `c'` is what the round
of the loop that takes it leaves. -/
theorem startup_exact_iff {c c₁ : Ctx} {data rest : Bytes} {s : Startup} (hc : Reachable c) (hr : c.role = .server)
    (hs : c.startupSeen = false) (ha : c.acceptInput data = some c₁) (hres : c.resid ++ data = s.enc ++ rest)
    (hfit : s.Fits c) : ∃ c', c₁.feedStep = .again c' ∧ (StartupExact c₁ c' s ↔ ∃ pairs, s.Carries pairs) := by
  have hok := (reachable_ok hc).1
  have hres₁ : c₁.resid = s.enc ++ rest := (acceptInput_resid hok ha).trans hres
  obtain ⟨haw, -, hmax, -, -⟩ := acceptInput_same ha
  have hwait : c.awaitsStartup = true := by simp [Ctx.awaitsStartup, hr, hs]
  obtain ⟨hstep, -, -⟩ := feedStep_startup (acceptInput_ok hok ha) (haw.trans hwait)
    (by unfold Startup.Fits; rw [hmax]; exact hfit) hres₁
  obtain ⟨hseen, hlog⟩ := parseStartupBody_seen c₁ s.body s.len
  refine ⟨_, hstep, ⟨?_, ?_⟩⟩
  · intro h
    by_contra hno
    rw [not_exists] at hno
    rw [(h.refused hno).1] at hseen
    cases hseen
  · rintro ⟨pairs₀, hp₀⟩
    refine ⟨fun pairs hp => ⟨hseen, _, hlog, rfl, ?_⟩, fun hno => absurd hp₀ (hno pairs₀)⟩
    obtain ⟨hkeys, hbody⟩ := hp
    have hfuel : pairs.length ≤ s.body.length := by
      have := length_le_encPairs pairs
      rw [hbody]
      simp only [List.length_append]
      omega
    have hloop := startupLoop_pairs hkeys (wr32Be Ctx.proto30) hbody s.body.length hfuel CStr.empty CStr.empty
    rw [lastOf_copied, lastOf_copied] at hloop
    change startupLoop s.body s.body.length 4 _ _ = _ at hloop
    rw [hloop]

/-- The startup message of a client that names a user only. -/
def userStartup : Startup := ⟨wr32Be Ctx.proto30 ++ encPairs [(keyUser, longIdentity 3)] ++ [0], by decide, by decide⟩

theorem startup_exact_user : ∃ c₁ c', (freshServer 16 64).acceptInput userStartup.enc = some c₁ ∧
    c₁.feedStep = .again c' ∧ StartupExact c₁ c' userStartup := by
  have hreach : Reachable (freshServer 16 64) := freshServer_reachable (by decide) (by decide)
  have hacc : (freshServer 16 64).acceptInput userStartup.enc =
      some ((freshServer 16 64).setInput userStartup.enc userStartup.enc.length 4096) := rfl
  have hres : (freshServer 16 64).resid ++ userStartup.enc = userStartup.enc ++ [] := (List.append_nil _).symm
  obtain ⟨c', hstep, hiff⟩ := startup_exact_iff hreach rfl rfl hacc hres (by decide)
  refine ⟨_, c', hacc, hstep, hiff.2 ⟨[(keyUser, longIdentity 3)], ?_, rfl⟩⟩
  intro kv hkv
  rw [List.mem_singleton.1 hkv]
  decide

/-- SSLRequest, which has the code 80877103 where the version stands. -/
def sslRequest : Startup := ⟨wr32Be 80877103, by decide, by decide⟩

theorem sslRequest_carries (pairs : List (CStr × CStr)) : ¬sslRequest.Carries pairs := by
  rintro ⟨-, hbody⟩
  have hlen := congrArg List.length hbody
  simp only [sslRequest, List.length_append, List.length_singleton, wr32Be_length] at hlen
  omega

/-- It is taken for a StartupMessage, and the StartupMessage behind it for a typed one. -/
theorem sslRequest_taken : Reachable (freshServer 16 64) ∧ ∃ c₁ c', (freshServer 16 64).acceptInput sslRequest.enc = some c₁ ∧
    c₁.feedStep = .again c' ∧ ¬StartupExact c₁ c' sslRequest := by
  have hreach : Reachable (freshServer 16 64) := freshServer_reachable (by decide) (by decide)
  have hacc : (freshServer 16 64).acceptInput sslRequest.enc = some ((freshServer 16 64).setInput sslRequest.enc 8 4096) := rfl
  have hok := (reachable_ok hreach).1
  have hres : _ = sslRequest.enc ++ [] := (acceptInput_resid hok hacc).trans (List.append_nil _).symm
  obtain ⟨hstep, -, -⟩ := feedStep_startup (acceptInput_ok hok hacc) rfl (by decide) hres
  refine ⟨hreach, _, _, hacc, hstep, ?_⟩
  intro h
  have hseen := (h.refused sslRequest_carries).1
  rw [(parseStartupBody_seen _ _ _).1] at hseen
  cases hseen

end Pqwire
