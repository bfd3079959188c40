import TrainVla.Adapters.Documents
import TrainVla.Store.Encoding
import TrainVla.World.Repositories
import Mathlib.Data.String.Basic
import Mathlib.Data.Prod.Lex

/-! The two adapters of the repositories: over a store of documents, and in memory. -/
namespace TrainVla

open Store

/-- A document with its identifier. -/
abbrev Snapshot := String × Document

/-- What was set last under each identifier. -/
abbrev Collection := Table Snapshot String Prod.fst

namespace Query

/-- `where(field, "==", value)` -/
def whereEq (field value : String) (snaps : List Snapshot) : List Snapshot :=
  snaps.filter fun snap => (snap.2.get field).asStr? = some value

/-- `where(field, "in", values)` -/
def whereIn (field : String) (values : List String) (snaps : List Snapshot) : List Snapshot :=
  snaps.filter fun snap => (snap.2.get field).asStr?.any (· ∈ values)

def timeOf (field : String) (snap : Snapshot) : Option ℤ := (snap.2.get field).asTime?

def sortKey (field : String) (snap : Snapshot) : ℤ ×ₗ String :=
  toLex ((timeOf field snap).getD 0, snap.1)

/-- `order_by(field)`: documents without the field are left out, and those with the same time
are ordered by their identifiers. -/
def orderBy (field : String) (snaps : List Snapshot) : List Snapshot :=
  (snaps.filter fun snap => (timeOf field snap).isSome).insertionSort
    fun a b => sortKey field a ≤ sortKey field b

end Query

/-- The port of the job repositories. -/
structure JobRepository (σ : Type) where
  get : String → σ → Except Exc (Option Job)
  create : Job → σ → σ
  update : Job → σ → σ
  listForUser : String → σ → Except Exc (List Job)
  listByStatuses : List JobStatus → σ → Except Exc (List Job)

def inMemoryJobRepository : JobRepository JobTable where
  get jobId jobs := .ok (jobs.get? jobId)
  create job jobs := jobs.put job
  update job jobs := jobs.put job
  listForUser userId jobs := .ok (JobTable.listForUser jobs userId)
  listByStatuses statuses jobs := .ok (JobTable.listByStatuses jobs statuses)

def jobSnapshot (job : Job) : Snapshot := (job.id, jobToDoc job)

def firestoreJobRepository : JobRepository Collection where
  get jobId docs :=
    match docs.get? jobId with
    | none => .ok none
    | some snap => (docToJob jobId snap.2).map some
  create job docs := docs.put (jobSnapshot job)
  update job docs := docs.put (jobSnapshot job)
  listForUser userId docs :=
    (Query.orderBy "created_at" (Query.whereEq "user_id" userId docs.rows)).mapM
      fun snap => docToJob snap.1 snap.2
  listByStatuses statuses docs :=
    (Query.orderBy "created_at"
      (Query.whereIn "status" (statuses.map JobStatus.value) docs.rows)).mapM
      fun snap => docToJob snap.1 snap.2

inductive JobCall
  | get (jobId : String)
  | create (job : Job)
  | update (job : Job)
  | listForUser (userId : String)
  | listByStatuses (statuses : List JobStatus)

namespace JobRepository

variable {σ : Type} (repo : JobRepository σ)

/-- The state after a call: only the two writes change it. -/
def step (s : σ) : JobCall → σ
  | .create job => repo.create job s
  | .update job => repo.update job s
  | .get _ | .listForUser _ | .listByStatuses _ => s

def run (s : σ) (calls : List JobCall) : σ := calls.foldl repo.step s

end JobRepository

/-- The part of the port of the user repositories that reads and writes by identifier. -/
structure UserRepository (σ : Type) where
  get : String → σ → Except Exc (Option User)
  create : User → σ → σ
  update : User → σ → σ

def inMemoryUserRepository : UserRepository UserTable where
  get userId users := .ok (users.get? userId)
  create user users := users.put user
  update user users := users.put user

def userSnapshot (user : User) : Snapshot := (user.id, userToDoc user)

def firestoreUserRepository : UserRepository Collection where
  get userId docs :=
    match docs.get? userId with
    | none => .ok none
    | some snap => (docToUser userId snap.2).map some
  create user docs := docs.put (userSnapshot user)
  update user docs := docs.put (userSnapshot user)

inductive UserCall
  | get (userId : String)
  | create (user : User)
  | update (user : User)

/-- The user that a call writes has a date that can be written. -/
def UserCall.Dated : UserCall → Prop
  | .get _ => True
  | .create user | .update user => user.Dated

namespace UserRepository

variable {σ : Type} (repo : UserRepository σ)

def step (s : σ) : UserCall → σ
  | .get _ => s
  | .create user => repo.create user s
  | .update user => repo.update user s

def run (s : σ) (calls : List UserCall) : σ := calls.foldl repo.step s

end UserRepository

end TrainVla
