import Netdisk.Os

/-!
# Tokens (`hash.c`) and replies (`send_message` of `tool.c`)

The JWT library is a parameter: what it makes of a `token_info`, and what it reads back.
-/

namespace Netdisk
open Os

/-- `TOKEN_LEN` -/
def tokenLen : Nat := 1024

/-- `TOKEN_EXP` -/
def tokenExp : Nat := 600

/-- `l8w8jwt_encode` and `l8w8jwt_decode` with the server's key, at a time of the clock. Decoding
succeeds only on tokens that encoding made, and reads what they were made of. -/
structure Jwt where
  encode : (now : Nat) → TokenInfo → Option CStr
  decode : (now : Nat) → CStr → Option TokenInfo
  encode_ne_nil : ∀ {now info token}, encode now info = some token → token ≠ []
  decode_made : ∀ {now token info}, decode now token = some info → ∃ made, encode made info = some token
  encode_inj : ∀ {now now' info info' token}, encode now info = some token → encode now' info' = some token →
    info = info'

namespace Jwt

variable (J : Jwt)

/-- `generate_token`: nothing is written to `JWT` on a failure. -/
def generateToken (now : Nat) (info : TokenInfo) : Option CStr :=
  (J.encode now info).filter fun token => token.length ≤ tokenLen

/-- `verify_token`: what `info` holds afterwards, if the token is valid. -/
def verifyToken (now : Nat) (token : CStr) : Option TokenInfo := J.decode now token

/-- The token was made for the user `id`. -/
def Encodes (token : CStr) (id : Nat) : Prop := ∃ now info, J.encode now info = some token ∧ info.userId = id

/-- A number in unary in front of a point. -/
def unaryRead (digit : Char) (s : CStr) : Nat × CStr :=
  ((s.takeWhile (· = digit)).length, (s.dropWhile (· = digit)).tail)

theorem unaryRead_replicate {digit : Char} (hd : digit ≠ '.') (n : Nat) (rest : CStr) :
    unaryRead digit (List.replicate n digit ++ '.' :: rest) = (n, rest) := by
  have hall : ∀ c ∈ List.replicate n digit, decide (c = digit) = true := fun c hc => by
    simpa using List.eq_of_mem_replicate hc
  rw [unaryRead, List.takeWhile_append_of_pos hall, List.dropWhile_append_of_pos hall]
  simp [hd.symm]

def unaryToken (made : Nat) (info : TokenInfo) : CStr :=
  List.replicate made '0' ++ '.' :: (List.replicate info.userId '1' ++ '.' :: info.workpath)

def readToken (token : CStr) : Nat × TokenInfo :=
  let (made, rest) := unaryRead '0' token
  let (userId, workpath) := unaryRead '1' rest
  (made, { userId, workpath })

theorem readToken_unaryToken (made : Nat) (info : TokenInfo) : readToken (unaryToken made info) = (made, info) := by
  simp only [readToken, unaryToken, unaryRead_replicate (show '0' ≠ '.' by decide),
    unaryRead_replicate (show '1' ≠ '.' by decide)]

/-- Tokens that say when and for whom they were made, and are good for one tick. -/
def unary : Jwt where
  encode now info := some (unaryToken now info)
  decode now token :=
    let (made, info) := readToken token
    if token = unaryToken made info ∧ now ≤ made + 1 then some info else none
  encode_ne_nil h := by
    rw [← Option.some.inj h, unaryToken]
    simp
  decode_made h := by
    obtain ⟨⟨htoken, -⟩, hinfo⟩ := Option.ite_none_right_eq_some.1 h
    exact ⟨_, by rw [← Option.some.inj hinfo, ← htoken]⟩
  encode_inj h h' := by
    have heq := (readToken_unaryToken _ _).symm.trans
      ((congrArg readToken (Option.some.inj (h.trans h'.symm))).trans (readToken_unaryToken _ _))
    exact (Prod.mk.inj heq).2

end Jwt

/-- `send_message`. -/
def sendMessage (J : Jwt) (clientFd : Int) (msg : CStr) (flag : Bool) (clientInfo : TokenInfo) : Os Unit := do
  let train : TransFile := { data := msg, dataLength := msg.length, flag }
  if clientInfo.userId ≠ 0 then
    let now ← time
    send clientFd { train with token := (J.generateToken now clientInfo).getD [] }
  else
    send clientFd train

/-- The frame that `send_message` sends. -/
def messageFrame (J : Jwt) (now : Nat) (msg : CStr) (flag : Bool) (clientInfo : TokenInfo) : TransFile where
  data := msg
  dataLength := msg.length
  flag := flag
  token := if clientInfo.userId ≠ 0 then (J.generateToken now clientInfo).getD [] else []

theorem sendMessage_run {σ : Type} {H : (o : Op) → σ → Option (Resp o × σ)} {s t : σ} {J : Jwt} {fd : Int} {now : Nat}
    {msg : CStr} {flag : Bool} {info : TokenInfo} (htime : H .time s = some (now, s))
    (hsend : H (.send fd (messageFrame J now msg flag info)) s = some ((), t)) :
    (sendMessage J fd msg flag info).run H s = some ((), t) := by
  by_cases hu : info.userId = 0
  · rw [messageFrame, if_neg (not_not.2 hu)] at hsend
    rw [sendMessage, if_neg (not_not.2 hu)]
    exact (Prog.run_perform (S := osSig) (H := H) _).trans hsend
  · rw [messageFrame, if_pos hu] at hsend
    rw [sendMessage, if_pos hu, Prog.bind_eq, time_bind, Prog.run_op, htime]
    exact (Prog.run_perform (S := osSig) (H := H) _).trans hsend

end Netdisk
