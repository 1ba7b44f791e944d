import Relevance.Settings.Read

namespace Relevance

variable (lib : JsonLibrary)

def Objective.toDocument (objective : Objective) : lib.Document := lib.name objective.name

def Encoding.toDocument (encoding : Encoding) : lib.Document := lib.name encoding.name

def ModelConfig.toDocument (config : ModelConfig) : lib.Document :=
  lib.record [
    ("objective", config.objective.toDocument lib),
    ("encoding", config.encoding.toDocument lib),
    ("leaf_floor", lib.optional lib.number config.leafFloor),
    ("max_features", lib.natural config.maxFeatures)]

def Normalizer.toDocument : Normalizer → lib.Document
  | identity => lib.record [("type", lib.name "identity")]
  | minMax min max =>
    lib.record [("type", lib.name "min_max"), ("min", lib.number min), ("max", lib.number max)]
  | standard mean deviation =>
    lib.record [("type", lib.name "standard"), ("mean", lib.number mean),
      ("std_dev", lib.number deviation)]
  | logistic => lib.record [("type", lib.name "sigmoid")]

def NormalizerTable.toDocument (table : NormalizerTable) : lib.Document :=
  lib.record [("normalizers",
    lib.map (table.entries.map fun (ordinal, n) => (ordinal, n.toDocument lib)))]

end Relevance
