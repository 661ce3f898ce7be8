import Iostreams.Foundation.Ownership

/-!
# The contexts of `ssl_factory`

`createServer()` makes a key and a certificate for `localhost` and gives both to a new context.
Every step that fails on the way jumps to the label `cleanup`, which frees what the locals name and
returns the context, so that a server can get one without a certificate.  Only the last step throws,
and it does so without passing the label.

`createServer(cert, key)` reads both from PEM texts.  It throws wherever a step fails, after it has
freed what it has.

The answers of OpenSSL are arguments of a call; memory does not run out.
-/

namespace Iostreams

open Foundation

inductive SslResource where
  /-- `SSL_CTX_new` -/
  | context
  /-- `BN_new` -/
  | bignum
  /-- `RSA_new` -/
  | rsa
  /-- `EVP_PKEY_new`, `PEM_read_bio_PrivateKey` -/
  | pkey
  /-- `X509_new`, `PEM_read_bio_X509` -/
  | certificate
  /-- `X509V3_EXT_conf_nid` -/
  | extension
  /-- `BIO_new`, `BIO_new_mem_buf` -/
  | bio
  deriving DecidableEq, Repr

abbrev SslRef := SslResource × Nat

inductive SslMethod where
  | client
  | server
  deriving DecidableEq, Repr

/-- An `SSL_CTX`; it has references of its own to what it uses. -/
structure SslContext where
  handle : SslRef
  method : SslMethod
  /-- `SSL_CTX_use_certificate` -/
  certificate : Option SslRef := none
  /-- `SSL_CTX_use_PrivateKey` -/
  privateKey : Option SslRef := none

/-- A server needs both. -/
def SslContext.armed (ctx : SslContext) : Bool := ctx.certificate.isSome && ctx.privateKey.isSome

abbrev FactoryResult := Except String SslContext

/-- Whether the calls that `createServer()` checks succeed. -/
structure GeneratedAnswers where
  newContext : Bool := true
  setWord : Bool := true
  generateKey : Bool := true
  assignRsa : Bool := true
  newExtension : Bool := true
  sign : Bool := true
  writeKey : Bool := true
  writeCertificate : Bool := true
  useCertificate : Bool := true
  usePrivateKey : Bool := true

/-- Whether those of `createServer(cert, key)` do. -/
structure PemAnswers where
  newContext : Bool := true
  readCertificate : Bool := true
  useCertificate : Bool := true
  readKey : Bool := true
  usePrivateKey : Bool := true
  checkKey : Bool := true

/-- What there is when `createServer()` hands the certificate and the key to the context. -/
def unassigned : Multiset SslResource :=
  {.context, .bignum, .pkey, .certificate, .bio, .bio}

namespace GeneratedAnswers

/-- No step jumps to the label. -/
def completes (answers : GeneratedAnswers) : Bool :=
  answers.setWord && answers.generateKey && answers.assignRsa && answers.sign &&
    answers.writeKey && answers.writeCertificate

/-- What is left behind by the step that throws. -/
def lost (answers : GeneratedAnswers) : Multiset SslResource :=
  if answers.newContext && answers.completes &&
      !(answers.useCertificate && answers.usePrivateKey) then unassigned
  else 0

end GeneratedAnswers

/-- The pointers that `createServer()` declares. -/
structure ServerLocals where
  bne : Option SslRef := none
  rsa : Option SslRef := none
  pkey : Option SslRef := none
  x509 : Option SslRef := none
  certBio : Option SslRef := none
  keyBio : Option SslRef := none

namespace ServerLocals

/-- The frees at the label. -/
def free (locals : ServerLocals) : Owning SslResource Unit := do
  Owning.ifPresent Owning.release locals.bne
  Owning.ifPresent Owning.release locals.rsa
  Owning.ifPresent Owning.release locals.pkey
  Owning.ifPresent Owning.release locals.x509
  Owning.ifPresent Owning.release locals.certBio
  Owning.ifPresent Owning.release locals.keyBio

/-- From the label `cleanup` to the end. -/
def cleanup (locals : ServerLocals) (ctx : SslContext) : Owning SslResource FactoryResult := do
  locals.free
  pure (.ok ctx)

/-- What the locals name and the context, the newest first. -/
def owned (locals : ServerLocals) (ctx : SslContext) : Multiset (SslResource × Nat) :=
  present locals.keyBio + (present locals.certBio + (present locals.x509 + (present locals.pkey +
    (present locals.rsa + (present locals.bne + {ctx.handle})))))

end ServerLocals

namespace SslFactory

/-- `createClient`; the parameters of the verification need nothing of their own. -/
def createClient (newContext : Bool) : Owning SslResource FactoryResult := do
  if newContext then do
    let handle ← Owning.obtain .context
    Owning.touch handle
    pure (.ok { handle, method := .client })
  else pure (.error "failed to create SSL context")

/-- The last block: the context gets the certificate and the key. -/
def assign (answers : GeneratedAnswers) (bne pkey x509 certBio keyBio : SslRef) (ctx : SslContext) :
    Owning SslResource FactoryResult := do
  Owning.touch ctx.handle
  Owning.touch x509
  -- `||` calls SSL_CTX_use_PrivateKey only after the other has succeeded
  if answers.useCertificate then do
    Owning.touch pkey
    if answers.usePrivateKey then
      ServerLocals.cleanup
        { bne := some bne, pkey := some pkey, x509 := some x509, certBio := some certBio,
          keyBio := some keyBio }
        { ctx with certificate := some x509, privateKey := some pkey }
    else pure (.error "Failed to assign certificate or private key to SSL context")
  else pure (.error "Failed to assign certificate or private key to SSL context")

/-- The PEM texts of the key and of the certificate, which nobody reads. -/
def writePem (answers : GeneratedAnswers) (bne pkey x509 : SslRef) (ctx : SslContext) :
    Owning SslResource FactoryResult := do
  let certBio ← Owning.obtain .bio
  let keyBio ← Owning.obtain .bio
  let locals : ServerLocals :=
    { bne := some bne, pkey := some pkey, x509 := some x509, certBio := some certBio,
      keyBio := some keyBio }
  Owning.touch keyBio
  Owning.touch pkey
  if answers.writeKey then do
    Owning.touch certBio
    Owning.touch x509
    if answers.writeCertificate then assign answers bne pkey x509 certBio keyBio ctx
    else locals.cleanup ctx
  else locals.cleanup ctx

/-- `X509_add_ext` copies the extension. -/
def addExtension (x509 : SslRef) (ext : Option SslRef) : Owning SslResource Unit :=
  match ext with
  | some ext => do
      Owning.touch x509
      Owning.release ext
  | none => pure ()

/-- The certificate, from `X509_new` to `X509_sign`. -/
def certify (answers : GeneratedAnswers) (bne pkey : SslRef) (ctx : SslContext) :
    Owning SslResource FactoryResult := do
  let x509 ← Owning.obtain .certificate
  -- from X509_set_version to X509_set_issuer_name
  Owning.touch x509
  Owning.touch pkey
  let ext ← Owning.obtainIf .extension answers.newExtension
  addExtension x509 ext
  -- X509_sign
  Owning.touch x509
  Owning.touch pkey
  if answers.sign then writePem answers bne pkey x509 ctx
  else ServerLocals.cleanup { bne := some bne, pkey := some pkey, x509 := some x509 } ctx

/-- The key, which has the `RSA` from `EVP_PKEY_assign_RSA` on. -/
def generate (answers : GeneratedAnswers) (bne : SslRef) (ctx : SslContext) :
    Owning SslResource FactoryResult := do
  let rsa ← Owning.obtain .rsa
  Owning.touch rsa
  Owning.touch bne
  if answers.generateKey then do
    let pkey ← Owning.obtain .pkey
    Owning.touch pkey
    if answers.assignRsa then do
      -- it is freed with the key
      Owning.release rsa
      certify answers bne pkey ctx
    else ServerLocals.cleanup { bne := some bne, rsa := some rsa, pkey := some pkey } ctx
  else ServerLocals.cleanup { bne := some bne, rsa := some rsa } ctx

/-- `createServer()` -/
def createServer (answers : GeneratedAnswers) : Owning SslResource FactoryResult := do
  if answers.newContext then do
    let handle ← Owning.obtain .context
    let ctx : SslContext := { handle, method := .server }
    let bne ← Owning.obtain .bignum
    Owning.touch bne
    if answers.setWord then generate answers bne ctx
    else ServerLocals.cleanup { bne := some bne } ctx
  else pure (.error "failed to create SSL context")

/-- What `createServer(cert, key)` frees before it throws. -/
def giveUp (what : String) : List SslRef → Owning SslResource FactoryResult
  | [] => pure (.error what)
  | resource :: rest => do
      Owning.release resource
      giveUp what rest

/-- `createServer(cert, key)` from `SSL_CTX_use_certificate` on. -/
def assignPem (answers : PemAnswers) (ctx : SslContext) (x509 : SslRef) :
    Owning SslResource FactoryResult := do
  Owning.touch ctx.handle
  Owning.touch x509
  if answers.useCertificate then do
    let keyBio ← Owning.obtain .bio
    let pkey ← Owning.obtainIf .pkey answers.readKey
    Owning.release keyBio
    match pkey with
    | none => giveUp "Failed to load private key" [x509, ctx.handle]
    | some pkey => do
        Owning.touch ctx.handle
        Owning.touch pkey
        if answers.usePrivateKey then do
          -- SSL_CTX_check_private_key
          Owning.touch ctx.handle
          if answers.checkKey then do
            Owning.release pkey
            Owning.release x509
            pure (.ok { ctx with certificate := some x509, privateKey := some pkey })
          else giveUp "Private key does not match certificate" [pkey, x509, ctx.handle]
        else giveUp "Failed to assign private key to SSL context" [pkey, x509, ctx.handle]
  else giveUp "Failed to assign certificate to SSL context" [x509, ctx.handle]

/-- `createServer(cert, key)` -/
def createServerFrom (answers : PemAnswers) : Owning SslResource FactoryResult := do
  if answers.newContext then do
    let handle ← Owning.obtain .context
    let certBio ← Owning.obtain .bio
    let x509 ← Owning.obtainIf .certificate answers.readCertificate
    Owning.release certBio
    match x509 with
    | none => giveUp "Failed to load X509 certificate" [handle]
    | some x509 => assignPem answers { handle, method := .server } x509
  else pure (.error "failed to create SSL context")

end SslFactory

inductive FactoryCall where
  | createClient (newContext : Bool)
  | createServer (answers : GeneratedAnswers)
  | createServerFrom (answers : PemAnswers)
  /-- `SSL_CTX_free` by the owner of a context. -/
  | free (index : Nat)

namespace FactoryCall

/-- What the program has after a call of the factory; a call that throws gives it nothing. -/
def received (contexts : List SslContext) : FactoryResult → List SslContext
  | .ok ctx => contexts ++ [ctx]
  | .error _ => contexts

def perform (contexts : List SslContext) :
    FactoryCall → Owning SslResource (List SslContext)
  | .createClient newContext => do
      let result ← SslFactory.createClient newContext
      pure (received contexts result)
  | .createServer answers => do
      let result ← SslFactory.createServer answers
      pure (received contexts result)
  | .createServerFrom answers => do
      let result ← SslFactory.createServerFrom answers
      pure (received contexts result)
  | .free index =>
      match contexts[index]? with
      | some ctx => do
          Owning.release ctx.handle
          pure (contexts.eraseIdx index)
      | none => pure contexts

def lostBy : FactoryCall → Multiset SslResource
  | .createServer answers => answers.lost
  | _ => 0

end FactoryCall

/-- What belongs to the result of a call. -/
def heldBy : FactoryResult → Multiset (SslResource × Nat)
  | .ok ctx => {ctx.handle}
  | .error _ => 0

/-! ## What a call of the factory leaves -/

namespace ServerLocals

/-- The label frees what the locals name, and the context is left. -/
theorem spends_cleanup (locals : ServerLocals) (ctx : SslContext) :
    Spends (locals.owned ctx) (locals.cleanup ctx) heldBy 0 := by
  have hfree : Spends
      (present locals.bne + (present locals.rsa + (present locals.pkey + (present locals.x509 +
        (present locals.certBio + (present locals.keyBio + {ctx.handle}))))))
      locals.free (fun _ => {ctx.handle}) 0 :=
    (Spends.releasePresent locals.bne _).seq fun _ =>
    (Spends.releasePresent locals.rsa _).seq fun _ =>
    (Spends.releasePresent locals.pkey _).seq fun _ =>
    (Spends.releasePresent locals.x509 _).seq fun _ =>
    (Spends.releasePresent locals.certBio _).seq fun _ => Spends.releasePresent locals.keyBio _
  refine (hfree.congr ?_ (fun _ => rfl) rfl).seq fun _ => Spends.stop _ rfl
  rw [owned]
  ac_rfl

end ServerLocals

namespace SslFactory

theorem spends_createClient (newContext : Bool) :
    Spends 0 (createClient newContext) heldBy 0 := by
  unfold createClient
  split
  · refine (Spends.obtain SslResource.context 0).seq fun handle => ?_
    exact (Spends.touch (Multiset.mem_cons_self handle 0)).seq fun _ => Spends.stop _ rfl
  · exact Spends.stop _ rfl

variable {answers : GeneratedAnswers} {bne pkey x509 certBio keyBio : SslRef} {ctx : SslContext}

/-- The last block throws or goes on to the label. -/
theorem spends_assign (hkinds : (keyBio ::ₘ certBio ::ₘ x509 ::ₘ pkey ::ₘ bne ::ₘ
      {ctx.handle}).map Prod.fst = unassigned) :
    Spends (keyBio ::ₘ certBio ::ₘ x509 ::ₘ pkey ::ₘ bne ::ₘ {ctx.handle})
      (assign answers bne pkey x509 certBio keyBio ctx) heldBy
      (if !(answers.useCertificate && answers.usePrivateKey) then unassigned else 0) := by
  have hthrow (what : String) :
      Spends _ (pure (.error what) : Owning SslResource FactoryResult) heldBy unassigned :=
    Spends.leave _ (zero_add _).symm hkinds
  unfold assign
  refine (Spends.touch (by simp)).seq fun _ => (Spends.touch (by simp)).seq fun _ => ?_
  cases answers.useCertificate with
  | false => exact hthrow _
  | true =>
      refine (Spends.touch (by simp)).seq fun _ => ?_
      cases answers.usePrivateKey with
      | false => exact hthrow _
      | true =>
          exact ServerLocals.spends_cleanup
            { bne := some bne, pkey := some pkey, x509 := some x509, certBio := some certBio,
              keyBio := some keyBio }
            { ctx with certificate := some x509, privateKey := some pkey }

theorem spends_writePem (hbne : bne.1 = .bignum) (hpkey : pkey.1 = .pkey)
    (hx509 : x509.1 = .certificate) (hctx : ctx.handle.1 = .context) :
    Spends (x509 ::ₘ pkey ::ₘ bne ::ₘ {ctx.handle}) (writePem answers bne pkey x509 ctx) heldBy
      (if answers.writeKey && (answers.writeCertificate &&
        !(answers.useCertificate && answers.usePrivateKey)) then unassigned else 0) := by
  unfold writePem
  refine (Spends.obtain SslResource.bio _).seqReturning (returns_obtain _) fun certBio hcertBio =>
    (Spends.obtain SslResource.bio _).seqReturning (returns_obtain _) fun keyBio hkeyBio => ?_
  have hcleanup := ServerLocals.spends_cleanup
    { bne := some bne, pkey := some pkey, x509 := some x509, certBio := some certBio,
      keyBio := some keyBio } ctx
  refine (Spends.touch (by simp)).seq fun _ => (Spends.touch (by simp)).seq fun _ => ?_
  cases answers.writeKey with
  | false => exact hcleanup
  | true =>
      refine (Spends.touch (by simp)).seq fun _ => (Spends.touch (by simp)).seq fun _ => ?_
      cases answers.writeCertificate with
      | false => exact hcleanup
      | true =>
          refine spends_assign ?_
          simp only [Multiset.map_cons, Multiset.map_singleton, hkeyBio, hcertBio, hx509, hpkey,
            hbne, hctx]
          decide

/-- The extension is freed, or there was none. -/
theorem spends_addExtension {owned : Multiset (SslResource × Nat)} (hmem : x509 ∈ owned)
    (ext : Option SslRef) :
    Spends (present ext + owned) (addExtension x509 ext) (fun _ => owned) 0 := by
  cases ext with
  | none => exact Spends.stop () (zero_add owned)
  | some ext =>
      exact (Spends.touch (Multiset.mem_cons_of_mem hmem)).seq fun _ => Spends.release ext owned

theorem spends_certify (hbne : bne.1 = .bignum) (hpkey : pkey.1 = .pkey)
    (hctx : ctx.handle.1 = .context) :
    Spends (pkey ::ₘ bne ::ₘ {ctx.handle}) (certify answers bne pkey ctx) heldBy
      (if answers.sign && (answers.writeKey && (answers.writeCertificate &&
        !(answers.useCertificate && answers.usePrivateKey))) then unassigned else 0) := by
  unfold certify
  refine (Spends.obtain SslResource.certificate _).seqReturning (returns_obtain _)
    fun x509 hx509 => ?_
  have hmem : x509 ∈ x509 ::ₘ pkey ::ₘ bne ::ₘ {ctx.handle} := Multiset.mem_cons_self _ _
  have hkey : pkey ∈ x509 ::ₘ pkey ::ₘ bne ::ₘ {ctx.handle} := by simp
  refine (Spends.touch hmem).seq fun _ => (Spends.touch hkey).seq fun _ =>
    (Spends.obtainIf SslResource.extension answers.newExtension _).seq fun ext =>
    (spends_addExtension hmem ext).seq fun _ =>
    (Spends.touch hmem).seq fun _ => (Spends.touch hkey).seq fun _ => ?_
  cases answers.sign with
  | false =>
      exact ServerLocals.spends_cleanup
        { bne := some bne, pkey := some pkey, x509 := some x509 } ctx
  | true => exact spends_writePem hbne hpkey hx509 hctx

theorem spends_generate (hbne : bne.1 = .bignum) (hctx : ctx.handle.1 = .context) :
    Spends (bne ::ₘ {ctx.handle}) (generate answers bne ctx) heldBy
      (if answers.generateKey && (answers.assignRsa && (answers.sign && (answers.writeKey &&
        (answers.writeCertificate && !(answers.useCertificate && answers.usePrivateKey)))))
        then unassigned else 0) := by
  unfold generate
  refine (Spends.obtain SslResource.rsa _).seq fun rsa =>
    (Spends.touch (by simp)).seq fun _ => (Spends.touch (by simp)).seq fun _ => ?_
  cases answers.generateKey with
  | false => exact ServerLocals.spends_cleanup { bne := some bne, rsa := some rsa } ctx
  | true =>
      refine (Spends.obtain SslResource.pkey _).seqReturning (returns_obtain _)
        fun pkey hpkey => (Spends.touch (by simp)).seq fun _ => ?_
      cases answers.assignRsa with
      | false =>
          exact ServerLocals.spends_cleanup
            { bne := some bne, rsa := some rsa, pkey := some pkey } ctx
      | true =>
          rw [Multiset.cons_swap]
          exact (Spends.release rsa _).seq fun _ => spends_certify hbne hpkey hctx

/-- `createServer()` loses what it has exactly where the context refuses the certificate or the
key. -/
theorem spends_createServer (answers : GeneratedAnswers) :
    Spends 0 (createServer answers) heldBy answers.lost := by
  have hlost : answers.lost = if answers.newContext && (answers.setWord &&
      (answers.generateKey && (answers.assignRsa && (answers.sign && (answers.writeKey &&
        (answers.writeCertificate && !(answers.useCertificate && answers.usePrivateKey)))))))
      then unassigned else 0 := by
    simp only [GeneratedAnswers.lost, GeneratedAnswers.completes, Bool.and_assoc]
  rw [hlost]
  unfold createServer
  cases answers.newContext with
  | false => exact Spends.stop _ rfl
  | true =>
      refine (Spends.obtain SslResource.context _).seqReturning (returns_obtain _)
        fun handle hhandle => (Spends.obtain SslResource.bignum _).seqReturning
          (returns_obtain _) fun bne hbne => (Spends.touch (by simp)).seq fun _ => ?_
      let ctx : SslContext := { handle, method := .server }
      have hctx : ctx.handle.1 = .context := hhandle
      cases answers.setWord with
      | false => exact ServerLocals.spends_cleanup { bne := some bne } ctx
      | true => exact spends_generate hbne hctx

/-- A call that gives up frees what it has, in the order of the list. -/
theorem spends_giveUp (what : String) (resources : List SslRef) :
    Spends (resources : Multiset (SslResource × Nat)) (giveUp what resources) heldBy 0 := by
  induction resources with
  | nil => exact Spends.stop _ rfl
  | cons resource rest ih => exact (Spends.release resource rest).seq fun _ => ih

theorem spends_assignPem (answers : PemAnswers) (ctx : SslContext) (x509 : SslRef) :
    Spends (x509 ::ₘ {ctx.handle}) (assignPem answers ctx x509) heldBy 0 := by
  have hgiveUp (what : String) := spends_giveUp what [x509, ctx.handle]
  have hgiveUpKey (what : String) (pkey : SslRef) := spends_giveUp what [pkey, x509, ctx.handle]
  unfold assignPem
  refine (Spends.touch (by simp)).seq fun _ => (Spends.touch (by simp)).seq fun _ => ?_
  cases answers.useCertificate with
  | false => exact hgiveUp _
  | true =>
      -- the `BIO` of the key is freed whether the key can be read or not
      refine (Spends.obtain SslResource.bio _).seq fun keyBio =>
        (Spends.obtainIf SslResource.pkey answers.readKey _).seq fun pkey => ?_
      have hbio : Spends (present pkey + keyBio ::ₘ x509 ::ₘ {ctx.handle})
          (Owning.release keyBio) (fun _ => present pkey + x509 ::ₘ {ctx.handle}) 0 := by
        rw [Multiset.add_cons]
        exact Spends.release keyBio _
      refine hbio.seq fun _ => ?_
      cases pkey with
      | none => exact hgiveUp _
      | some pkey =>
          refine (Spends.touch (by simp [present])).seq fun _ =>
            (Spends.touch (by simp [present])).seq fun _ => ?_
          cases answers.usePrivateKey with
          | false => exact hgiveUpKey _ pkey
          | true =>
              refine (Spends.touch (by simp [present])).seq fun _ => ?_
              cases answers.checkKey with
              | false => exact hgiveUpKey _ pkey
              | true =>
                  exact (Spends.release pkey (x509 ::ₘ {ctx.handle})).seq fun _ =>
                    (Spends.release x509 {ctx.handle}).seq fun _ => Spends.stop _ rfl

/-- `createServer(cert, key)` loses nothing. -/
theorem spends_createServerFrom (answers : PemAnswers) :
    Spends 0 (createServerFrom answers) heldBy 0 := by
  unfold createServerFrom
  cases answers.newContext with
  | false => exact Spends.stop _ rfl
  | true =>
      -- the `BIO` of the certificate is freed whether it can be read or not
      refine (Spends.obtain SslResource.context _).seq fun handle =>
        (Spends.obtain SslResource.bio _).seq fun certBio =>
        (Spends.obtainIf SslResource.certificate answers.readCertificate _).seq fun x509 => ?_
      have hbio : Spends (present x509 + certBio ::ₘ {handle})
          (Owning.release certBio) (fun _ => present x509 + {handle}) 0 := by
        rw [Multiset.add_cons]
        exact Spends.release certBio _
      refine hbio.seq fun _ => ?_
      cases x509 with
      | none => exact spends_giveUp _ [handle]
      | some x509 => exact spends_assignPem answers { handle, method := .server } x509

/-! ## Which contexts it returns -/

/-- A context for a server, with a certificate and a key if `armed`. -/
def Serves (armed : Bool) (result : FactoryResult) : Prop :=
  ∀ ctx, result = .ok ctx → ctx.method = .server ∧ ctx.armed = armed

theorem serves_ok {ctx : SslContext} (hmethod : ctx.method = .server) :
    Serves ctx.armed (.ok ctx) := by
  rintro _ ⟨⟩
  exact ⟨hmethod, rfl⟩

theorem serves_error (armed : Bool) (what : String) : Serves armed (.error what) :=
  fun _ hresult => absurd hresult (by simp)

theorem returns_cleanup (locals : ServerLocals) (hmethod : ctx.method = .server) :
    Returns (locals.cleanup ctx) (Serves ctx.armed) :=
  Returns.after _ fun _ => Returns.pure (serves_ok hmethod)

/-- From the last block only a context with both comes back. -/
theorem returns_assign (hmethod : ctx.method = .server) :
    Returns (assign answers bne pkey x509 certBio keyBio ctx) (Serves true) := by
  have hthrow (what : String) :
      Returns (pure (.error what) : Owning SslResource FactoryResult) (Serves true) :=
    Returns.pure (serves_error true what)
  refine Returns.after _ fun _ => Returns.after _ fun _ => ?_
  split
  · refine Returns.after _ fun _ => ?_
    split
    · exact returns_cleanup _ hmethod
    · exact hthrow _
  · exact hthrow _

/-- Up to there each failure returns the context as it is. -/
theorem returns_certify (hmethod : ctx.method = .server) (hunarmed : ctx.armed = false) :
    Returns (certify answers bne pkey ctx)
      (Serves (answers.sign && (answers.writeKey && answers.writeCertificate))) := by
  have hcleanup (locals : ServerLocals) : Returns (locals.cleanup ctx) (Serves false) :=
    hunarmed ▸ returns_cleanup locals hmethod
  refine Returns.after _ fun x509 => Returns.after _ fun _ => Returns.after _ fun _ =>
    Returns.after _ fun ext => Returns.after _ fun _ => Returns.after _ fun _ =>
    Returns.after _ fun _ => ?_
  cases answers.sign with
  | false => exact hcleanup _
  | true =>
      refine Returns.after _ fun certBio => Returns.after _ fun keyBio =>
        Returns.after _ fun _ => Returns.after _ fun _ => ?_
      cases answers.writeKey with
      | false => exact hcleanup _
      | true =>
          refine Returns.after _ fun _ => Returns.after _ fun _ => ?_
          cases answers.writeCertificate with
          | false => exact hcleanup _
          | true => exact returns_assign hmethod

/-- `createServer()` returns a context without a certificate where a step before the last block
has failed. -/
theorem returns_createServer (answers : GeneratedAnswers) :
    Returns (createServer answers) (Serves answers.completes) := by
  have hcompletes : answers.completes = (answers.setWord && (answers.generateKey &&
      (answers.assignRsa && (answers.sign && (answers.writeKey && answers.writeCertificate))))) := by
    simp only [GeneratedAnswers.completes, Bool.and_assoc]
  rw [hcompletes]
  unfold createServer
  split
  · refine Returns.after _ fun handle => Returns.after _ fun bne => Returns.after _ fun _ => ?_
    let ctx : SslContext := { handle, method := .server }
    have hcleanup (locals : ServerLocals) : Returns (locals.cleanup ctx) (Serves false) :=
      returns_cleanup locals rfl
    cases answers.setWord with
    | false => exact hcleanup _
    | true =>
        refine Returns.after _ fun rsa => Returns.after _ fun _ => Returns.after _ fun _ => ?_
        cases answers.generateKey with
        | false => exact hcleanup _
        | true =>
            refine Returns.after _ fun pkey => Returns.after _ fun _ => ?_
            cases answers.assignRsa with
            | false => exact hcleanup _
            | true => exact Returns.after _ fun _ => returns_certify rfl rfl
  · exact Returns.pure (serves_error _ _)

theorem returns_giveUp (what : String) (resources : List SslRef) :
    Returns (giveUp what resources) (Serves true) := by
  induction resources with
  | nil => exact Returns.pure (serves_error true what)
  | cons resource rest ih => exact Returns.after _ fun _ => ih

/-- `createServer(cert, key)` returns only contexts with both. -/
theorem returns_createServerFrom (answers : PemAnswers) :
    Returns (createServerFrom answers) (Serves true) := by
  unfold createServerFrom
  split
  · refine Returns.after _ fun handle => Returns.after _ fun _ => Returns.after _ fun x509 =>
      Returns.after _ fun _ => ?_
    cases x509 with
    | none => exact returns_giveUp _ _
    | some x509 =>
        refine Returns.after _ fun _ => Returns.after _ fun _ => ?_
        split
        · refine Returns.after _ fun _ => Returns.after _ fun pkey => Returns.after _ fun _ => ?_
          cases pkey with
          | none => exact returns_giveUp _ _
          | some pkey =>
              refine Returns.after _ fun _ => Returns.after _ fun _ => ?_
              split
              · refine Returns.after _ fun _ => ?_
                split
                · exact Returns.after _ fun _ => Returns.after _ fun _ =>
                    Returns.pure (serves_ok rfl)
                · exact returns_giveUp _ _
              · exact returns_giveUp _ _
        · exact returns_giveUp _ _
  · exact Returns.pure (serves_error true _)

theorem returns_createClient (newContext : Bool) :
    Returns (createClient newContext) fun result =>
      ∀ ctx, result = .ok ctx → ctx.method = .client := by
  unfold createClient
  split
  · refine Returns.after _ fun handle => Returns.after _ fun _ => Returns.pure ?_
    rintro _ ⟨⟩
    rfl
  · exact Returns.pure fun _ hresult => absurd hresult (by simp)

end SslFactory

namespace FactoryCall

/-- A context that a call can return. -/
def Makes (ctx : SslContext) : FactoryCall → Prop
  | .createClient _ => ctx.method = .client
  | .createServer answers => ctx.method = .server ∧ ctx.armed = answers.completes
  | .createServerFrom _ => ctx.method = .server ∧ ctx.armed = true
  | .free _ => False

/-- What a program has after a call it had before, or the call has made it. -/
theorem returns_perform (contexts : List SslContext) (call : FactoryCall) :
    Returns (call.perform contexts) fun next =>
      ∀ ctx ∈ next, ctx ∈ contexts ∨ call.Makes ctx := by
  have hreceived (result : FactoryResult) (hmade : ∀ ctx, result = .ok ctx → call.Makes ctx) :
      ∀ ctx ∈ received contexts result, ctx ∈ contexts ∨ call.Makes ctx := by
    cases result with
    | error what => exact fun ctx hmem => Or.inl hmem
    | ok made =>
        intro ctx hmem
        rcases List.mem_append.mp hmem with hold | hnew
        · exact Or.inl hold
        · exact Or.inr (hmade ctx (congrArg Except.ok (List.mem_singleton.mp hnew).symm))
  cases call with
  | createClient newContext =>
      exact (SslFactory.returns_createClient newContext).bind fun result hresult =>
        Returns.pure (hreceived result hresult)
  | createServer answers =>
      exact (SslFactory.returns_createServer answers).bind fun result hresult =>
        Returns.pure (hreceived result hresult)
  | createServerFrom answers =>
      exact (SslFactory.returns_createServerFrom answers).bind fun result hresult =>
        Returns.pure (hreceived result hresult)
  | free index =>
      unfold perform
      simp only
      split
      · exact Returns.after _ fun _ => Returns.pure fun ctx hmem =>
          Or.inl (List.mem_of_mem_eraseIdx hmem)
      · exact Returns.pure fun ctx hmem => Or.inl hmem

/-- The handles of the contexts that a program has. -/
def ownedContexts (contexts : List SslContext) : Multiset (SslResource × Nat) :=
  (contexts.map fun ctx => ({ctx.handle} : Multiset (SslResource × Nat))).sum

theorem spends_perform (contexts : List SslContext) (call : FactoryCall) :
    Spends (ownedContexts contexts) (call.perform contexts) ownedContexts call.lostBy := by
  have hcall {program : Owning SslResource FactoryResult} {lost : Multiset SslResource}
      (hprogram : Spends 0 program heldBy lost) :
      Spends (ownedContexts contexts)
        (do
          let result ← program
          pure (received contexts result)) ownedContexts lost := by
    have hframe := hprogram.frame (ownedContexts contexts)
    rw [zero_add] at hframe
    refine (hframe.bind fun result => Spends.stop _ ?_).congr rfl (fun _ => rfl) (add_zero lost)
    cases result with
    | error what => exact zero_add _
    | ok ctx => exact (sum_concat contexts ctx fun ctx => {ctx.handle}).symm
  cases call with
  | createClient newContext => exact hcall (SslFactory.spends_createClient newContext)
  | createServer answers => exact hcall (SslFactory.spends_createServer answers)
  | createServerFrom answers => exact hcall (SslFactory.spends_createServerFrom answers)
  | free index =>
      unfold perform
      simp only
      split
      · next ctx hget =>
          obtain ⟨hsplit, -⟩ := sum_of_getElem hget fun ctx =>
            ({ctx.handle} : Multiset (SslResource × Nat))
          have hfree := Spends.release ctx.handle (ownedContexts (contexts.eraseIdx index))
          exact (hfree.seq fun _ => Spends.stop _ rfl).congr hsplit (fun _ => rfl) rfl
      · exact Spends.pure contexts ownedContexts

theorem bookkeeping_factory :
    Bookkeeping perform ownedContexts (fun _ => 0) (fun _ => lostBy) (fun _ _ => True) where
  spends contexts call _ := spends_perform contexts call
  remembers _ _ _ := fun _ _ _ _ resource hmem => absurd hmem (Multiset.notMem_zero resource)
  faults _ _ _ _ hallowed := absurd trivial hallowed

end FactoryCall

/-- Whatever OpenSSL answers, a program that makes and frees contexts frees nothing twice and uses
nothing that is freed.  In the end it has its contexts, and each `createServer()` whose certificate
or key was refused has left six objects behind.  A context of a server lacks its certificate and
key exactly if the call that it came with is a `createServer()` that has jumped to the label. -/
theorem sslContexts_balanced (calls : List FactoryCall) :
    ∃ contexts ledger, Owning.run FactoryCall.perform [] calls {} = some (contexts, ledger) ∧
      ledger.held.map Prod.fst = (FactoryCall.ownedContexts contexts).map Prod.fst +
        (calls.map FactoryCall.lostBy).sum ∧
      ∀ ctx ∈ contexts, ∃ call,
        Made FactoryCall.perform (fun contexts => contexts) [] calls {} call ctx ∧
          call.Makes ctx := by
  have hnone : FactoryCall.ownedContexts [] = 0 := rfl
  obtain ⟨hfault, hheld⟩ := FactoryCall.bookkeeping_factory.balanced calls hnone rfl
  cases hrun : Owning.run FactoryCall.perform [] calls {} with
  | none =>
      have ⟨_, _, _, _, _, _, _, hwrong⟩ := hfault.mp hrun
      exact absurd trivial hwrong
  | some final =>
      obtain ⟨contexts, ledger⟩ := final
      have hlost := lostIn_const FactoryCall.lostBy hrun
      refine ⟨contexts, ledger, rfl, by rw [hheld contexts ledger hrun, hlost], ?_⟩
      intro ctx hmem
      have hmade := Returns.run FactoryCall.returns_perform [] calls hrun
      exact (hmade ctx hmem).resolve_left List.not_mem_nil

end Iostreams
