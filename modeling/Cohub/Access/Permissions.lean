import Cohub.Lib.OrderedMap
import Cohub.Lib.Table

/-! # Who may do what

    The permissions of a space's roles, and the five functions that decide
    with them: for one request, for a user's rights on a space, for a list of
    sessions (row by row and with bulk queries) and for a list of spaces.

    The tables are as the database keeps them: one role for a user in a space,
    one policy for a resource. -/

namespace Cohub.Access

/-! ## Roles and permissions -/

inductive SpaceRole where
  | host | builder | guest
deriving DecidableEq

inductive Permission where
  | spaceView | spaceEdit | spaceCreate
  | spaceLabelView | spaceLabelManage | spaceLabelAssign
  | sessionView | sessionEdit | sessionPromptReadonly | sessionPromptFullaccess
  | sessionAccessManage | generationCreate
  | fileView | fileViewFiltered | fileEdit
  | checkpointView | checkpointEdit
  | memberView | memberManage
  | referencesView
  | channelView | channelManage
  | cronjobView | cronjobManage
  | taskrunView | commandExecute
  | sandboxView | sandboxManage
  | modView | modManage
  | spaceCommerceView | spaceCommerceManage
  | appManage
  | userSpaceList | userSessionList | userTaskrunList | userUsageRead
deriving DecidableEq

open Permission

def allPermissions : List Permission :=
  [spaceView, spaceEdit, spaceCreate, spaceLabelView, spaceLabelManage, spaceLabelAssign,
    sessionView, sessionEdit, sessionPromptReadonly, sessionPromptFullaccess, sessionAccessManage,
    generationCreate, fileView, fileViewFiltered, fileEdit, checkpointView, checkpointEdit,
    memberView, memberManage, referencesView, channelView, channelManage, cronjobView,
    cronjobManage, taskrunView, commandExecute, sandboxView, sandboxManage, modView, modManage,
    spaceCommerceView, spaceCommerceManage, appManage, userSpaceList, userSessionList,
    userTaskrunList, userUsageRead]

def rolePermissions : SpaceRole → List Permission
  | .host =>
      [spaceView, spaceEdit, spaceLabelView, spaceLabelManage, spaceLabelAssign, sessionView,
        sessionEdit, sessionPromptReadonly, sessionPromptFullaccess, sessionAccessManage,
        generationCreate, fileView, fileEdit, checkpointView, checkpointEdit, memberView,
        memberManage, referencesView, channelView, channelManage, cronjobView, cronjobManage,
        taskrunView, commandExecute, sandboxView, sandboxManage, modView, modManage,
        spaceCommerceView, spaceCommerceManage, appManage]
  | .builder =>
      [spaceView, spaceLabelView, spaceLabelAssign, sessionView, sessionEdit,
        sessionPromptReadonly, sessionPromptFullaccess, sessionAccessManage, generationCreate,
        fileView, fileEdit, checkpointView, checkpointEdit, memberView, referencesView,
        channelView, cronjobView, cronjobManage, taskrunView, commandExecute, sandboxView,
        modView, appManage]
  | .guest => [spaceView, spaceLabelView, sessionView, fileViewFiltered, checkpointView]

def scopeListHasPermission (scopes : List Permission) (permission : Permission) : Bool :=
  if permission ∈ scopes then true
  else if permission = sessionPromptReadonly ∧ sessionPromptFullaccess ∈ scopes then true
  else if permission = fileViewFiltered ∧ fileView ∈ scopes then true
  else false

def roleHasPermission (role : SpaceRole) (permission : Permission) : Bool :=
  scopeListHasPermission (rolePermissions role) permission

def permissionsForRole : Option SpaceRole → List Permission
  | none => []
  | some role => allPermissions.filter (roleHasPermission role)

/-! ## Subjects and policies -/

/-- An id of a `uuid` column, in the text that the database returns. -/
structure Uuid where
  text     : String
  nonempty : text ≠ ""
deriving DecidableEq

inductive Audience where
  | memberUser | signedInUser | anonymousUser
deriving DecidableEq

structure PermissionSubject where
  uuid : Option String

/-- `user?.uuid` where it is truthy. -/
def subjectId (user : Option PermissionSubject) : Option String :=
  (user.bind PermissionSubject.uuid).filter (· ≠ "")

def resolveAudience (user : Option PermissionSubject) : Audience :=
  if (subjectId user).isSome then .signedInUser else .anonymousUser

structure AccessPolicy where
  signedInUserRole  : Option SpaceRole
  anonymousUserRole : Option SpaceRole
deriving DecidableEq

def AccessPolicy.roleFor (policy : AccessPolicy) (audience : Audience) : Option SpaceRole :=
  if audience = .signedInUser then policy.signedInUserRole.or policy.anonymousUserRole
  else policy.anonymousUserRole

inductive ResourceType where
  | space | session
deriving DecidableEq

/-! ## Tables and stores -/

structure SpaceMember where
  spaceId : Uuid
  userId  : String
  role    : SpaceRole
deriving DecidableEq

structure AccessPolicyRow extends AccessPolicy where
  resourceType : ResourceType
  resourceId   : Uuid
deriving DecidableEq

/-- `space_members` and `access_policies` with their unique indexes. -/
structure AccessTables where
  spaceMembers    : List SpaceMember
  accessPolicies  : List AccessPolicyRow
  uniqueSpaceUser : Table.Distinct (fun member => (member.spaceId, member.userId)) spaceMembers
  uniqueResource  : Table.Distinct (fun row => (row.resourceType, row.resourceId)) accessPolicies

structure PermissionStore where
  getSpaceMemberRole : Uuid → String → Option SpaceRole
  getAccessPolicy    : ResourceType → Uuid → Option AccessPolicy

/-- `createDrizzlePermissionStore`. -/
def AccessTables.store (db : AccessTables) : PermissionStore where
  getSpaceMemberRole spaceId userId :=
    (db.spaceMembers.find? fun member => member.spaceId = spaceId ∧ member.userId = userId).map
      SpaceMember.role
  getAccessPolicy resourceType resourceId :=
    (db.accessPolicies.find? fun row =>
      row.resourceType = resourceType ∧ row.resourceId = resourceId).map
      AccessPolicyRow.toAccessPolicy

/-! ## One decision -/

def memberRole (store : PermissionStore) (user : Option PermissionSubject) (spaceId : Uuid) :
    Option SpaceRole :=
  (subjectId user).bind (store.getSpaceMemberRole spaceId)

def resolveNonMemberRole (store : PermissionStore) (user : Option PermissionSubject)
    (spaceId : Uuid) (sessionId : Option Uuid) : Option SpaceRole :=
  let audience := resolveAudience user
  let sessionPolicy := sessionId.bind (store.getAccessPolicy .session)
  let effectivePolicy := sessionPolicy.or (store.getAccessPolicy .space spaceId)
  effectivePolicy.bind (·.roleFor audience)

def hasPermission (store : PermissionStore) (user : Option PermissionSubject)
    (permission : Permission) (spaceId : Uuid) (sessionId : Option Uuid) : Bool :=
  match memberRole store user spaceId with
  | some role => roleHasPermission role permission
  | none =>
      match resolveNonMemberRole store user spaceId sessionId with
      | none => false
      | some fallbackRole => roleHasPermission fallbackRole permission

structure PermissionAccess where
  role        : Option SpaceRole
  permissions : List Permission

def resolvePermissionAccess (store : PermissionStore) (user : Option PermissionSubject)
    (spaceId : Uuid) (sessionId : Option Uuid) : PermissionAccess :=
  match memberRole store user spaceId with
  | some role => { role, permissions := permissionsForRole (some role) }
  | none =>
      match resolveNonMemberRole store user spaceId sessionId with
      | none => { role := none, permissions := [] }
      | some fallbackRole =>
          { role := some fallbackRole, permissions := permissionsForRole (some fallbackRole) }

/-! ## Lists of sessions and spaces -/

section Lists

variable {TSession : Type} (id : TSession → Uuid)

def mustNotBeMember : String :=
  "filterSessionsByPermission must not be called for space members. " ++
    "Use space-level permission checks instead."

/-- `filterSessionsByPermission`; `id` has a session's id. -/
def filterSessionsByPermission (store : PermissionStore) (user : Option PermissionSubject)
    (permission : Permission) (spaceId : Uuid) (sessions : List TSession)
    (spacePolicy : Option AccessPolicy) : Except String (List TSession) :=
  if sessions.isEmpty then .ok []
  else if (memberRole store user spaceId).isSome then .error mustNotBeMember
  else
    let audience := resolveAudience user
    let resolvedSpacePolicy := spacePolicy.or (store.getAccessPolicy .space spaceId)
    let sessionPolicyMap := OrderedMap.ofList
      (sessions.map fun session => (id session, store.getAccessPolicy .session (id session)))
    .ok (sessions.filter fun session =>
      let effective := (sessionPolicyMap.get? (id session)).join.or resolvedSpacePolicy
      effective.any fun policy => (policy.roleFor audience).any (roleHasPermission · permission))

/-- `createBatchDrizzlePermissionStore(db).filterSessionsByPermission`. -/
def batchFilterSessionsByPermission (db : AccessTables) (user : Option PermissionSubject)
    (permission : Permission) (spaceId : Uuid) (sessions : List TSession)
    (spacePolicy : Option AccessPolicy) : Except String (List TSession) :=
  if sessions.isEmpty then .ok []
  else if (memberRole db.store user spaceId).isSome then .error mustNotBeMember
  else
    let audience := resolveAudience user
    let resolvedSpacePolicy := spacePolicy.or (db.store.getAccessPolicy .space spaceId)
    let sessionIds := sessions.map id
    let sessionPolicyRows := db.accessPolicies.filter fun row =>
      row.resourceType = .session ∧ row.resourceId ∈ sessionIds
    let sessionPolicyMap :=
      OrderedMap.ofList (sessionPolicyRows.map fun policy => (policy.resourceId, policy))
    .ok (sessions.filter fun session =>
      let sessionPolicy := (sessionPolicyMap.get? (id session)).map AccessPolicyRow.toAccessPolicy
      let effective := sessionPolicy.or resolvedSpacePolicy
      effective.any fun policy => (policy.roleFor audience).any (roleHasPermission · permission))

end Lists

/-- The user's rows in some spaces, for a user who signed in. -/
def membersIn (db : AccessTables) (user : Option PermissionSubject) (spaceIds : List Uuid) :
    List SpaceMember :=
  match subjectId user with
  | none => []
  | some uuid => db.spaceMembers.filter fun member =>
      member.userId = uuid ∧ member.spaceId ∈ spaceIds

/-- `filterSpaceIdsByPermission`: the members' spaces first, then the policies
    of the remaining ones. -/
def filterSpaceIdsByPermission (db : AccessTables) (user : Option PermissionSubject)
    (permission : Permission) (spaceIds : List Uuid) : List Uuid :=
  if spaceIds.isEmpty then []
  else
    let unique := spaceIds.eraseDups
    let members := membersIn db user unique
    let memberSpaceIds := members.map SpaceMember.spaceId
    let memberAllowed :=
      (members.filter fun member => roleHasPermission member.role permission).map SpaceMember.spaceId
    let remaining := unique.filter fun spaceId => spaceId ∉ memberSpaceIds
    let policies := db.accessPolicies.filter fun row =>
      row.resourceType = .space ∧ row.resourceId ∈ remaining
    let policyAllowed :=
      (policies.filter fun policy =>
        (policy.roleFor (resolveAudience user)).any (roleHasPermission · permission)).map
        AccessPolicyRow.resourceId
    unique.filter fun spaceId => spaceId ∈ memberAllowed ++ policyAllowed

end Cohub.Access
