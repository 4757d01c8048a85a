import Stagewise.Scope.Table

namespace Stagewise

def uniformStage : Scope := .ofNat 0

def elementStage : Scope := .ofNat 1

def usedByElement : UsageFlags := .ofNat 1

namespace Endpoint

def uniform (name : String) : Endpoint := ⟨name, uniformStage, .empty⟩

def perElement (name : String) : Endpoint := ⟨name, elementStage, .empty⟩

def result (name : String) : Endpoint := ⟨name, elementStage, usedByElement⟩

end Endpoint

namespace Deformer

def table : ScopeTable where
  scopes := ["uniform", "vertex"]
  roots := [.uniform "deformer", .perElement "vertex"]
  sinks := [.result "result"]
  transfers := [⟨uniformStage, elementStage, "u2v", false⟩]

end Deformer

namespace Particle

def scopes : List String := ["uniform", "particle"]

def createTable : ScopeTable where
  scopes := scopes
  roots := [.uniform "emitter", .uniform "uniform", .perElement "particle", .perElement "index",
    .perElement "id", .perElement "seed"]
  sinks := [.result "particle", .result "seed"]
  transfers := [⟨uniformStage, elementStage, "create_u2p", false⟩]

def updateTable : ScopeTable where
  scopes := scopes
  roots := [.uniform "uniform", .perElement "particle", .perElement "index", .perElement "id",
    .perElement "seed"]
  sinks := [.result "particle", .result "seed", .result "alive"]
  transfers := [⟨uniformStage, elementStage, "update_u2p", false⟩]

def shapeTable : ScopeTable where
  scopes := scopes
  roots := [.uniform "transform", .uniform "parentMatrix", .uniform "uniform",
    .perElement "particle", .perElement "index", .perElement "particleMatrix"]
  sinks := [.result "index", .result "particleMatrix"]
  transfers := [⟨uniformStage, elementStage, "u2p", false⟩]

end Particle

end Stagewise
